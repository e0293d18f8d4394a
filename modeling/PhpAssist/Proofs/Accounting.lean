import PhpAssist.Grammar.Stmt
import PhpAssist.Proofs.Reading

/-!
# Every rule accounts for its tokens

A parse never drops a token, never reads one twice and never changes their order, and this is not
a matter of the input: it holds on the error paths as well as on the others. There is one lemma
for each rule of the grammar, and it follows the text of the rule. What a rule reads is what its
parts read, one behind the other, with nodes closed around some of it; reporting something reads
nothing, and a token that fits nowhere is read into an error node.

The rules for expressions call one another, as do those for statements, so their lemmas are
proved together by induction on the allowance.

## Main definitions

* `Grammar.Accounted`: Some row of trees was read.
* `Grammar.ExprRules`, `Grammar.StmtRules`: The statements about all rules of a group.

## Theorems

* `Grammar.exprRules`, `Grammar.stmtRules`: The rules of the two groups account for their tokens.
-/

namespace PhpAssist

namespace Grammar

/-- Some row was read between two states. -/
def Accounted (state after : State) : Prop := ∃ row, Reads state after row

namespace Accounted

variable {a b c : State} {kind : Kind}

theorem refl (state : State) : Accounted state state := ⟨[], .refl state⟩

theorem trans (h : Accounted a b) (hmore : Accounted b c) : Accounted a c := by
  rcases h with ⟨row, hrow⟩
  rcases hmore with ⟨more, hmore⟩
  exact ⟨row ++ more, hrow.trans hmore⟩

theorem bump (a : State) : Accounted a a.bump := by
  rcases hahead : a.ahead with _ | ⟨tok, rest⟩
  · have hbump : a.bump = a := by rw [State.bump, hahead]
    rw [hbump]
    exact refl a
  · exact ⟨_, Reads.bump hahead⟩

theorem report (a : State) (message : String) : Accounted a (a.report message) :=
  ⟨[], Reads.report message⟩

theorem stall (a : State) : Accounted a a.stall := ⟨[], Reads.stall⟩

theorem expect (a : State) (kind : Kind) : Accounted a (a.expect kind) := by
  unfold State.expect
  split
  · exact bump a
  · exact ⟨[], Reads.said (List.suffix_cons _ _)⟩

/-- A part that may be missing. -/
theorem optional (present : Bool) (h : Accounted a b) :
    Accounted a (if present then b else a) := by
  cases present with
  | false => exact refl a
  | true => exact h

theorem skip (a : State) (kind : Kind) : Accounted a (a.skip kind) :=
  optional _ (bump a)

theorem close (h : Accounted a.start b) (hkind : kind ≠ .tombstone) :
    Accounted a (b.close a.mark kind) := by
  rcases h with ⟨row, hrow⟩
  exact ⟨_, (hrow.close hkind).reads⟩

theorem reject (a : State) (message : String) : Accounted a (a.reject message) :=
  ((report a.start message).trans (bump _)).close (by decide)

theorem rejectUnless (a : State) (message : String) (awaited : KindSet) :
    Accounted a (a.rejectUnless message awaited) := by
  unfold State.rejectUnless
  split
  · exact report a message
  · exact reject a message

/-- What a rule that may answer with a node has read. -/
theorem of_outcome {found : Option Completed × State} (h : Outcome a found) :
    Accounted a found.2 := by
  rcases found with ⟨_ | completed, after⟩
  · exact h
  · rcases h with ⟨children, hmakes⟩
    exact ⟨_, hmakes.reads⟩

theorem leaf (a : State) (hkind : kind ≠ .tombstone) : Accounted a (a.leaf kind).2 :=
  (bump a.start).close hkind

end Accounted

namespace Outcome

variable {a b : State} {kind : Kind}

/-- A node that a rule completes around what it read since it started. -/
theorem complete (h : Accounted a.start b) (hkind : kind ≠ .tombstone) :
    Outcome a (b.complete a.mark kind) := by
  rcases h with ⟨row, hrow⟩
  exact ⟨row, hrow.close hkind⟩

/-- A node that a loop goes on with. -/
theorem around {completed : Completed} {c : State} (hkind : kind ≠ .tombstone)
    (h : Outcome a (some completed, b)) (hrow : Accounted (b.precede completed) c) :
    Outcome a (some ⟨b.mark, kind⟩, c.close b.mark kind) := by
  rcases h with ⟨children, hmakes⟩
  rcases hrow with ⟨row, hrow⟩
  exact ⟨_, hmakes.around hkind hrow⟩

end Outcome

/-! ## Lists -/

theorem accounted_items {item : State → Bool × State}
    (hitem : ∀ state, Accounted state (item state).2) (shape : Brackets) (allowance : Nat)
    (state : State) : Accounted state (items shape item allowance state) := by
  -- By induction on the calls: each round makes up for what its parts have done.
  induction allowance generalizing state with
  | zero => exact .stall state
  | succ allowance ih =>
    have hfound := hitem state
    rw [items]
    split
    · exact .refl state
    split
    · exact (Accounted.reject state _).trans (ih _)
    split
    · rename_i after heq
      rwa [heq] at hfound
    · rename_i after heq
      rw [heq] at hfound
      split
      · exact hfound.trans ((Accounted.bump after).trans (ih _))
      split
      · exact hfound.trans ((Accounted.expect after _).trans (ih _))
      · exact hfound

theorem accounted_delimited {item : State → Bool × State}
    (hitem : ∀ state, Accounted state (item state).2) (shape : Brackets) (allowance : Nat)
    (state : State) : Accounted state (delimited shape item allowance state) :=
  (Accounted.bump state).trans ((accounted_items hitem shape allowance _).trans (.expect _ _))

theorem accounted_commaSeparated {item : State → State}
    (hitem : ∀ state, Accounted state (item state)) (allowance : Nat) (state : State) :
    Accounted state (commaSeparated item allowance state) := by
  induction allowance generalizing state with
  | zero => exact .stall state
  | succ allowance ih =>
    rw [commaSeparated]
    split
    · exact (Accounted.bump state).trans ((hitem _).trans (ih _))
    · exact .refl state

/-! ## Expressions -/

theorem accounted_missingExpr (state : State) : Accounted state (missingExpr state) := by
  unfold missingExpr
  split
  · exact .report state _
  · exact .reject state _

theorem accounted_className (state : State) : Accounted state (className state) := by
  unfold className
  split
  · exact .leaf state (by decide)
  · exact .leaf state (by decide)
  · exact .report state _

section Items

variable {read : State → Option Completed × State} (hread : ∀ state, Accounted state (read state).2)
include hread

theorem accounted_argument (state : State) : Accounted state (argument read state).2 := by
  unfold argument
  split
  · exact hread state
  · exact .refl state

theorem accounted_arrowValue (state : State) : Accounted state (arrowValue read state) :=
  .optional _ ((Accounted.bump state).trans (hread _))

theorem accounted_arrayItem (state : State) : Accounted state (arrayItem read state).2 := by
  unfold arrayItem
  split
  · exact ((hread state.start).trans (accounted_arrowValue hread _)).close (by decide)
  · exact .refl state

end Items

theorem binding?_kind_ne {kind : Kind} {text : Text} {binding : Binding}
    (h : binding? kind text = some binding) : binding.kind ≠ .tombstone := by
  unfold binding? at h
  split at h
  · rw [← Option.some.inj h]
    decide
  · rcases Option.map_eq_some_iff.1 h with ⟨entry, _, hentry⟩
    rw [← hentry]
    simp only [ne_eq, reduceCtorEq, not_false_eq_true]
  · exact absurd h (by simp only [reduceCtorEq, not_false_eq_true])

theorem operandKind?_ne {kind node : Kind} (h : operandKind? kind = some node) :
    node ≠ .tombstone := by
  unfold operandKind? at h
  split at h
  all_goals
    first
    | exact absurd h (by simp only [reduceCtorEq, not_false_eq_true])
    | rw [← Option.some.inj h]; decide

/-- What the rules for expressions do with a given allowance. The loops go on with a node that
    another rule completed, so for them an earlier state is the one from which the node was
    made. -/
structure ExprRules (allowance : Nat) : Prop where
  expr : ∀ least state, Outcome state (Grammar.expr allowance least state)
  operators : ∀ least state operand after, Outcome state (some operand, after) →
    Outcome state (some (Grammar.operators allowance least operand after).1,
      (Grammar.operators allowance least operand after).2)
  unary : ∀ state, Outcome state (Grammar.unary allowance state)
  postfixes : ∀ state operand after, Outcome state (some operand, after) →
    Outcome state (some (Grammar.postfixes allowance operand after).1,
      (Grammar.postfixes allowance operand after).2)
  argList : ∀ state, Accounted state (Grammar.argList allowance state)
  memberName : ∀ state, Accounted state (Grammar.memberName allowance state)
  primary : ∀ state, Outcome state (Grammar.primary allowance state)

/-- A node that was completed before its loop found no allowance left. -/
theorem Outcome.stall {state after : State} {operand : Completed}
    (h : Outcome state (some operand, after)) : Outcome state (some operand, after.stall) := by
  rcases h with ⟨children, hmakes⟩
  exact ⟨children, ⟨hmakes.ahead, hmakes.last, hmakes.diagnostics, fun _ => rfl⟩, hmakes.log⟩

namespace ExprRules

theorem zero : ExprRules 0 where
  expr _ state := Accounted.stall state
  operators _ _ _ _ h := h.stall
  unary state := Accounted.stall state
  postfixes _ _ _ h := h.stall
  argList state := .stall state
  memberName state := .stall state
  primary state := Accounted.stall state

variable {allowance : Nat} (rules : ExprRules allowance)
include rules

theorem reads_expr (least : Nat) (state : State) :
    Accounted state (Grammar.expr allowance least state).2 :=
  .of_outcome (rules.expr least state)

theorem expr_succ (least : Nat) (state : State) :
    Outcome state (Grammar.expr (allowance + 1) least state) := by
  have hunary := rules.unary state
  rw [Grammar.expr]
  split
  · rename_i after heq
    rwa [heq] at hunary
  · rename_i operand after heq
    rw [heq] at hunary
    exact rules.operators least state operand after hunary

theorem operators_succ (least : Nat) (state : State) (operand : Completed) (after : State)
    (h : Outcome state (some operand, after)) :
    Outcome state (some (Grammar.operators (allowance + 1) least operand after).1,
      (Grammar.operators (allowance + 1) least operand after).2) := by
  have hoperand (power : Nat) : Accounted (after.precede operand)
      (Grammar.expr allowance power (after.precede operand).bump).2 :=
    (Accounted.bump _).trans (rules.reads_expr power _)
  rw [Grammar.operators]
  dsimp only
  -- Each branch that goes on closes a node around what was read behind the operand.
  split
  · exact rules.operators _ _ _ _ (h.around (by decide) (hoperand _))
  split
  · split
    · exact h
    · refine rules.operators _ _ _ _ (h.around (by decide) ?_)
      refine (Accounted.bump _).trans (Accounted.trans ?_
        ((Accounted.expect _ _).trans (rules.reads_expr _ _)))
      split
      · exact .refl _
      · exact rules.reads_expr _ _
  split
  · exact h
  · rename_i binding hbinding
    split
    · exact h
    · exact rules.operators _ _ _ _ (h.around (binding?_kind_ne hbinding) (hoperand _))

theorem unary_succ (state : State) : Outcome state (Grammar.unary (allowance + 1) state) := by
  rw [Grammar.unary]
  split
  · exact .complete ((Accounted.bump _).trans (rules.reads_expr _ _)) (by decide)
  have hprimary := rules.primary state
  split
  · rename_i after heq
    rwa [heq] at hprimary
  · rename_i operand after heq
    rw [heq] at hprimary
    exact rules.postfixes state operand after hprimary

theorem postfixes_succ (state : State) (operand : Completed) (after : State)
    (h : Outcome state (some operand, after)) :
    Outcome state (some (Grammar.postfixes (allowance + 1) operand after).1,
      (Grammar.postfixes (allowance + 1) operand after).2) := by
  have hmember : Accounted (after.precede operand)
      (Grammar.memberName allowance (after.precede operand).bump) :=
    (Accounted.bump _).trans (rules.memberName _)
  rw [Grammar.postfixes]
  dsimp only
  -- Each branch that goes on closes a node around what was read behind the operand.
  split
  · exact rules.postfixes _ _ _ (h.around (by decide) (rules.argList _))
  · refine rules.postfixes _ _ _ (h.around (by decide) ?_)
    refine (Accounted.bump _).trans (Accounted.trans ?_ (.expect _ _))
    split
    · exact .refl _
    · exact rules.reads_expr _ _
  · exact rules.postfixes _ _ _ (h.around (by decide) hmember)
  · exact rules.postfixes _ _ _ (h.around (by decide) hmember)
  · split
    · exact rules.postfixes _ _ _ (h.around (by decide) (.bump _))
    · exact h
  · exact h

theorem argList_succ (state : State) : Accounted state (Grammar.argList (allowance + 1) state) := by
  rw [Grammar.argList]
  exact (accounted_delimited (accounted_argument (rules.reads_expr 0)) _ _ _).close (by decide)

theorem memberName_succ (state : State) :
    Accounted state (Grammar.memberName (allowance + 1) state) := by
  rw [Grammar.memberName]
  split
  · exact .bump state
  · exact .leaf state (by decide)
  · exact (Accounted.bump state).trans ((rules.reads_expr 0 _).trans (.expect _ _))
  · split
    · exact .bump state
    · exact .report state _

theorem primary_succ (state : State) : Outcome state (Grammar.primary (allowance + 1) state) := by
  rw [Grammar.primary]
  -- A node is completed around what each first token asks for, and nothing where an operand is
  -- missing.
  split
  · rename_i kind hkind
    exact .complete (.bump state.start) (operandKind?_ne hkind)
  split
  · exact .complete ((Accounted.bump _).trans ((rules.reads_expr 0 _).trans (.expect _ _)))
      (by decide)
  · exact .complete (accounted_delimited (accounted_arrayItem (rules.reads_expr 0)) _ _ _)
      (by decide)
  · have hnamed := (Accounted.bump state.start).trans (accounted_className _)
    refine .complete (hnamed.trans ?_) (by decide)
    split
    · exact rules.argList _
    · exact .refl _
  · exact accounted_missingExpr state

end ExprRules

/-- The rules for expressions account for every token, whatever their allowance. -/
theorem exprRules (allowance : Nat) : ExprRules allowance := by
  induction allowance with
  | zero => exact .zero
  | succ allowance rules =>
    exact ⟨rules.expr_succ, rules.operators_succ, rules.unary_succ, rules.postfixes_succ,
      rules.argList_succ, rules.memberName_succ, rules.primary_succ⟩

theorem accounted_expr (allowance least : Nat) (state : State) :
    Accounted state (expr allowance least state).2 :=
  (exprRules allowance).reads_expr least state

/-! ## Parameters -/

theorem accounted_unionMembers (allowance : Nat) (state : State) :
    Accounted state (unionMembers allowance state) := by
  induction allowance generalizing state with
  | zero => exact .stall state
  | succ allowance ih =>
    rw [unionMembers]
    split
    · exact (Accounted.bump state).trans ((Accounted.expect _ _).trans (ih _))
    · exact .refl state

theorem accounted_typeRef (allowance : Nat) (state : State) :
    Accounted state (typeRef allowance state) :=
  ((Accounted.skip state.start _).trans
    ((Accounted.expect _ _).trans (accounted_unionMembers _ _))).close (by decide)

theorem accounted_paramName (allowance : Nat) (state : State) :
    Accounted state (paramName allowance state) := by
  have htype (a : State) : Accounted a
      (if a.isAt .name || a.isAt .question then typeRef allowance a else a) :=
    .optional _ (accounted_typeRef allowance a)
  have hmark (a : State) : Accounted a (if a.isAtText .operator "&" then a.bump else a) :=
    .optional _ (.bump a)
  exact (htype _).trans ((hmark _).trans (.expect _ _))

theorem accounted_param (allowance : Nat) (state : State) :
    Accounted state (param allowance state).2 := by
  have hdefault (a : State) : Accounted a
      (if a.isAt .equals then (expr allowance 0 a.bump).2 else a) :=
    .optional _ ((Accounted.bump a).trans (accounted_expr _ _ _))
  unfold param
  split
  · exact ((accounted_paramName _ _).trans (hdefault _)).close (by decide)
  · exact .refl state

theorem accounted_paramList (allowance : Nat) (state : State) :
    Accounted state (paramList allowance state) :=
  (accounted_delimited (accounted_param allowance) _ _ _).close (by decide)

/-! ## Statements -/

theorem accounted_anyExpr (allowance : Nat) (state : State) :
    Accounted state (anyExpr allowance state) :=
  accounted_expr allowance 0 state

theorem accounted_exprList (allowance : Nat) (state : State) :
    Accounted state (exprList allowance state) :=
  (accounted_anyExpr _ _).trans (accounted_commaSeparated (accounted_anyExpr allowance) _ _)

theorem accounted_condition (allowance : Nat) (state : State) :
    Accounted state (condition allowance state) :=
  (Accounted.expect _ _).trans ((accounted_anyExpr _ _).trans (.expect _ _))

theorem accounted_optionalExpr (allowance : Nat) (state : State) :
    Accounted state (optionalExpr allowance state) :=
  .optional _ (accounted_anyExpr allowance state)

theorem accounted_jumpStmt {kind : Kind} (hkind : kind ≠ .tombstone) (allowance : Nat)
    (state : State) : Accounted state (jumpStmt kind allowance state) :=
  ((Accounted.bump state.start).trans
    ((accounted_optionalExpr _ _).trans (.expect _ _))).close hkind

theorem accounted_forPart (allowance : Nat) (state : State) (terminator : Kind) :
    Accounted state (forPart allowance state terminator) := by
  unfold forPart
  split
  · exact .expect _ _
  · exact (accounted_exprList _ _).trans (.expect _ _)

theorem forHead_eq (allowance : Nat) (state : State) :
    forHead allowance state = forPart allowance (forPart allowance (forPart allowance
      (state.expect .leftParen) .semicolon) .semicolon) .rightParen := by
  rw [forHead, List.foldl_cons, List.foldl_cons, List.foldl_cons, List.foldl_nil]

theorem accounted_forHead (allowance : Nat) (state : State) :
    Accounted state (forHead allowance state) := by
  rw [forHead_eq]
  exact (Accounted.expect _ _).trans ((accounted_forPart _ _ _).trans
    ((accounted_forPart _ _ _).trans (accounted_forPart _ _ _)))

theorem accounted_foreachHead (allowance : Nat) (state : State) :
    Accounted state (foreachHead allowance state) :=
  (Accounted.expect _ _).trans ((accounted_anyExpr _ _).trans ((Accounted.expect _ _).trans
    ((accounted_anyExpr _ _).trans
      ((accounted_arrowValue (accounted_expr allowance 0) _).trans (.expect _ _)))))

theorem accounted_functionName (state : State) : Accounted state (functionName state) := by
  have hname (a : State) : Accounted a
      (if a.isAt .name then a.bump
        else a.rejectUnless "expected function name" (.ofList [.leftParen, .leftBrace])) := by
    split
    · exact .bump a
    · exact .rejectUnless a _ _
  unfold functionName
  dsimp only
  split
  · exact (Accounted.bump state).trans (hname _)
  · exact hname state

theorem accounted_functionHead (allowance : Nat) (state : State) :
    Accounted state (functionHead allowance state) := by
  have hparams (a : State) : Accounted a (functionParams allowance a) := by
    unfold functionParams
    split
    · exact accounted_paramList allowance a
    · exact .report a _
  have hresult (a : State) : Accounted a (resultType allowance a) := by
    exact .optional _ ((Accounted.bump a).trans (accounted_typeRef _ _))
  exact (accounted_functionName state).trans ((hparams _).trans (hresult _))

/-- What the rules for statements do with a given allowance. -/
structure StmtRules (allowance : Nat) : Prop where
  stmtList : ∀ closing state, Accounted state (Grammar.stmtList closing allowance state)
  stmt : ∀ state, Accounted state (Grammar.stmt allowance state)
  block : ∀ state, Accounted state (Grammar.block allowance state)
  body : ∀ state, Accounted state (Grammar.body allowance state)
  elseifClauses : ∀ state, Accounted state (Grammar.elseifClauses allowance state)
  elseClause : ∀ state, Accounted state (Grammar.elseClause allowance state)

namespace StmtRules

theorem zero : StmtRules 0 :=
  ⟨fun _ => .stall, .stall, .stall, .stall, .stall, .stall⟩

variable {allowance : Nat} (rules : StmtRules allowance)
include rules

theorem stmtList_succ (closing : Kind) (state : State) :
    Accounted state (Grammar.stmtList closing (allowance + 1) state) := by
  rw [Grammar.stmtList]
  split
  · exact .refl state
  · refine (rules.stmt state).trans (Accounted.trans ?_ (rules.stmtList closing _))
    split
    · exact .reject _ _
    · exact .refl _

theorem stmt_succ (state : State) : Accounted state (Grammar.stmt (allowance + 1) state) := by
  -- A statement with a keyword goes on behind it.
  have hkeyword {kind : Kind} {after : State} (h : Accounted state.start.bump after)
      (hkind : kind ≠ .tombstone) : Accounted state (after.close state.mark kind) :=
    ((Accounted.bump state.start).trans h).close hkind
  have hguarded (a : State) : Accounted a (Grammar.body allowance (condition allowance a)) :=
    (accounted_condition _ _).trans (rules.body _)
  rw [Grammar.stmt]
  dsimp only
  split
  · exact rules.block state
  · exact ((Accounted.bump state.start).trans
      ((accounted_exprList _ _).trans (.expect _ _))).close (by decide)
  · exact accounted_jumpStmt (by decide) _ _
  · exact accounted_jumpStmt (by decide) _ _
  · exact accounted_jumpStmt (by decide) _ _
  · exact hkeyword ((hguarded _).trans ((rules.elseifClauses _).trans (rules.elseClause _)))
      (by decide)
  · exact hkeyword (hguarded _) (by decide)
  · exact hkeyword ((rules.body _).trans ((Accounted.expect _ _).trans
      ((accounted_condition _ _).trans (.expect _ _)))) (by decide)
  · exact hkeyword ((accounted_forHead _ _).trans (rules.body _)) (by decide)
  · exact hkeyword ((accounted_foreachHead _ _).trans (rules.body _)) (by decide)
  · have hhead := accounted_functionHead allowance state.start.bump
    split
    · exact hkeyword (hhead.trans (rules.block _)) (by decide)
    · exact hkeyword (hhead.trans (.report _ _)) (by decide)
  · exact hkeyword (.refl _) (by decide)
  · exact .reject state _
  · split
    · exact ((accounted_anyExpr _ _).trans (.expect _ _)).close (by decide)
    · exact .reject state _

theorem block_succ (state : State) : Accounted state (Grammar.block (allowance + 1) state) := by
  rw [Grammar.block]
  exact ((Accounted.bump state.start).trans
    ((rules.stmtList _ _).trans (.expect _ _))).close (by decide)

theorem body_succ (state : State) : Accounted state (Grammar.body (allowance + 1) state) := by
  rw [Grammar.body]
  split
  · exact .report state _
  · exact rules.stmt state

theorem elseifClauses_succ (state : State) :
    Accounted state (Grammar.elseifClauses (allowance + 1) state) := by
  rw [Grammar.elseifClauses]
  split
  · refine Accounted.trans (Accounted.close ?_ (by decide)) (rules.elseifClauses _)
    exact (Accounted.bump _).trans ((accounted_condition _ _).trans (rules.body _))
  · exact .refl state

theorem elseClause_succ (state : State) :
    Accounted state (Grammar.elseClause (allowance + 1) state) := by
  rw [Grammar.elseClause]
  split
  · exact ((Accounted.bump _).trans (rules.body _)).close (by decide)
  · exact .refl state

end StmtRules

/-- The rules for statements account for every token, whatever their allowance. -/
theorem stmtRules (allowance : Nat) : StmtRules allowance := by
  induction allowance with
  | zero => exact .zero
  | succ allowance rules =>
    exact ⟨rules.stmtList_succ, rules.stmt_succ, rules.block_succ, rules.body_succ,
      rules.elseifClauses_succ, rules.elseClause_succ⟩

end Grammar

end PhpAssist

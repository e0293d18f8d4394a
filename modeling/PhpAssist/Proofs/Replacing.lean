import PhpAssist.Proofs.Frames
import PhpAssist.Proofs.Productions

/-!
# Other code in place of some code

Where a concatenation stands, a string literal may stand: it needs less of what is around it, and
whatever ends the one ends the other. Where an expression stands as a statement, a condition with an
`else` may stand: no word behind it belongs to it. And in front of a statement of a block there may
be more statements. So code stays code when one is put in place of the other and statements are put
in front of the statement around it, and the new code is the old one in everything else.

## Main definitions

* `Grammar.Replaces`: What may stand in place of what.
* `Grammar.Splice`: What is taken out, and what is put in.
* `Grammar.Edited`: A shape with the changes made in some places.

## Theorems

* `Grammar.Derives.edited`, `Grammar.DerivesStmt.edited`: What is changed is derived as well.
-/

namespace PhpAssist

namespace Grammar

/-- What may stand in place of what: a literal in place of a concatenation, and a condition in place
    of a statement that is an expression, if nothing that comes behind it belongs to it. -/
inductive Replaces : Shape → Shape → Prop
  | literal {row : List Shape} {it : Word} (hword : it.kind = .heredocString) :
      Replaces (.node .concatExpr row) (.node .stringLiteral [.word it])
  | condition {row parts : List Shape}
      (hderived : ∀ look, DerivesStmt .stmt look [.node .ifStmt parts]) :
      Replaces (.node .exprStmt row) (.node .ifStmt parts)

/-- A shape with another one to put in its place, and a statement with other ones to put in front of
    it. -/
structure Splice where
  old : Shape
  new : Shape
  anchor : Shape
  hoists : List Shape
  replaces : Replaces old new
  anchor_shape : ∃ kind row, anchor = .node kind row
  hoists_derived : ∀ hoist ∈ hoists, ∀ look, DerivesStmt .stmt look [hoist]

mutual

/-- A shape in which the changes are made in some places. -/
inductive Edited (splice : Splice) : Shape → Shape → Prop
  | word (it : Word) : Edited splice (.word it) (.word it)
  | replaced : Edited splice splice.old splice.new
  | node {kind : Kind} {row other : List Shape} (hrow : EditedRow splice row other) :
      Edited splice (.node kind row) (.node kind other)
  | holder {kind : Kind} {row other : List Shape} (hkind : kind.holdsStatements = true)
      (hrow : EditedStmts splice row other) : Edited splice (.node kind row) (.node kind other)

/-- A row in which the changes are made below its shapes. -/
inductive EditedRow (splice : Splice) : List Shape → List Shape → Prop
  | nil : EditedRow splice [] []
  | cons {shape changed : Shape} {row other : List Shape} (hshape : Edited splice shape changed)
      (hrow : EditedRow splice row other) : EditedRow splice (shape :: row) (changed :: other)

/-- A row of statements, in which statements are put in front of some. -/
inductive EditedStmts (splice : Splice) : List Shape → List Shape → Prop
  | nil : EditedStmts splice [] []
  | cons {shape changed : Shape} {row other : List Shape} (hshape : Edited splice shape changed)
      (hrow : EditedStmts splice row other) : EditedStmts splice (shape :: row) (changed :: other)
  | hoist {changed : Shape} {row other : List Shape} (hanchor : Edited splice splice.anchor changed)
      (hrow : EditedStmts splice row other) :
      EditedStmts splice (splice.anchor :: row) (splice.hoists ++ changed :: other)

end

variable {splice : Splice} {shape changed : Shape} {row other : List Shape}

/-! ## Taking an edit apart -/

mutual

theorem Edited.refl (splice : Splice) (shape : Shape) : Edited splice shape shape :=
  match shape with
  | .word it => .word it
  | .node _ row => .node (EditedRow.refl splice row)

theorem EditedRow.refl (splice : Splice) (row : List Shape) : EditedRow splice row row :=
  match row with
  | [] => .nil
  | shape :: row => .cons (Edited.refl splice shape) (EditedRow.refl splice row)

end

theorem Splice.old_shape (splice : Splice) : ∃ kind row, splice.old = .node kind row ∧
    (kind = .concatExpr ∨ kind = .exprStmt) := by
  cases splice with
  | mk old new anchor hoists replaces =>
    cases replaces with
    | literal => exact ⟨_, _, rfl, .inl rfl⟩
    | condition => exact ⟨_, _, rfl, .inr rfl⟩

/-- A word stays. -/
theorem Edited.eq_word {it : Word} (h : Edited splice (.word it) changed) : changed = .word it := by
  generalize hshape : Shape.word it = shape at h
  cases h with
  | word => rfl
  | replaced =>
    rcases splice.old_shape with ⟨_, _, hold, _⟩
    exact absurd (hshape.trans hold) (by simp only [reduceCtorEq, not_false_eq_true])
  | node | holder => exact absurd hshape (by simp only [reduceCtorEq, not_false_eq_true])

/-- A node stays a node of its kind, unless another one is put in its place. -/
theorem Edited.node_cases {kind : Kind} (h : Edited splice (.node kind row) changed) :
    (.node kind row = splice.old ∧ changed = splice.new) ∨
    (∃ other, changed = .node kind other ∧ EditedRow splice row other) ∨
    ∃ other, changed = .node kind other ∧ kind.holdsStatements = true ∧
      EditedStmts splice row other := by
  generalize hshape : Shape.node kind row = shape at h
  -- Replaced as a whole, edited in a part, or edited among its statements.
  cases h with
  | word => exact absurd hshape (by simp only [reduceCtorEq, not_false_eq_true])
  | replaced => exact .inl ⟨rfl, rfl⟩
  | node hrow =>
    rw [Shape.node.injEq] at hshape
    rw [hshape.1, hshape.2]
    exact .inr (.inl ⟨_, rfl, hrow⟩)
  | holder hkind hrow =>
    rw [Shape.node.injEq] at hshape
    rw [hshape.1, hshape.2]
    exact .inr (.inr ⟨_, rfl, hkind, hrow⟩)

/-- Nodes that are never taken out, and in which nothing is put in front of a statement. -/
abbrev Stays (kind : Kind) : Prop :=
  (kind ≠ .concatExpr ∧ kind ≠ .exprStmt) ∧ kind.holdsStatements = false

/-- A node that is not replaced and holds no statements stays. -/
theorem Edited.exists_node {kind : Kind} (h : Edited splice (.node kind row) changed)
    (hkind : Stays kind) : ∃ other, changed = .node kind other ∧ EditedRow splice row other := by
  rcases h.node_cases with ⟨hold, _⟩ | hrow | ⟨_, _, hholder, _⟩
  · rcases splice.old_shape with ⟨_, _, hshape, hold'⟩
    rw [hshape, Shape.node.injEq] at hold
    rw [← hold.1] at hold'
    exact absurd hold' (not_or.mpr hkind.1)
  · exact hrow
  · rw [hkind.2] at hholder
    exact absurd hholder Bool.false_ne_true

namespace EditedRow

theorem eq_nil (h : EditedRow splice [] other) : other = [] := by
  cases h
  rfl

theorem single (h : Edited splice shape changed) : EditedRow splice [shape] [changed] :=
  .cons h .nil

theorem head (h : EditedRow splice [shape] [changed]) : Edited splice shape changed := by
  cases h with
  | cons hshape _ => exact hshape

/-! Rows of a known form. What stands in them is changed part by part. -/

theorem exists_cons (h : EditedRow splice (shape :: row) other) :
    ∃ changed rest, other = changed :: rest ∧ EditedRow splice [shape] [changed] ∧
      EditedRow splice row rest := by
  cases h with
  | cons hshape hrow => exact ⟨_, _, rfl, .single hshape, hrow⟩

theorem exists_single (h : EditedRow splice [shape] other) : ∃ changed, other = [changed] := by
  rcases h.exists_cons with ⟨changed, rest, rfl, _, hrest⟩
  rw [hrest.eq_nil]
  exact ⟨changed, rfl⟩

theorem exists_word {it : Word} (h : EditedRow splice (.word it :: row) other) :
    ∃ rest, other = .word it :: rest ∧ EditedRow splice row rest := by
  rcases h.exists_cons with ⟨changed, rest, rfl, hshape, hrest⟩
  rw [hshape.head.eq_word]
  exact ⟨rest, rfl, hrest⟩

theorem exists_append {more : List Shape} (h : EditedRow splice (row ++ more) other) :
    ∃ front back, other = front ++ back ∧ EditedRow splice row front ∧
      EditedRow splice more back := by
  induction row generalizing other with
  | nil => exact ⟨[], other, rfl, .nil, h⟩
  | cons shape row ih =>
    rcases exists_cons h with ⟨changed, rest, rfl, hshape, hrest⟩
    rcases ih hrest with ⟨front, back, rfl, hfront, hback⟩
    exact ⟨changed :: front, back, rfl, .cons hshape.head hfront, hback⟩

/-- What stands between two words is changed by itself. -/
theorem exists_between {opening closing : Word}
    (h : EditedRow splice (.word opening :: (row ++ [Shape.word closing])) other) :
    ∃ inner, other = .word opening :: (inner ++ [Shape.word closing]) ∧
      EditedRow splice row inner := by
  rcases h.exists_word with ⟨rest, rfl, hrest⟩
  rcases hrest.exists_append with ⟨inner, back, rfl, hinner, hback⟩
  rcases hback.exists_word with ⟨rest, rfl, hnil⟩
  rw [hnil.eq_nil]
  exact ⟨inner, rfl, hinner⟩

theorem exists_bracketed {opening closing : Word}
    (h : EditedRow splice [.word opening, shape, .word closing] other) :
    ∃ changed, other = [.word opening, changed, .word closing] ∧
      EditedRow splice [shape] [changed] := by
  rcases @exists_between splice [shape] other opening closing h with ⟨inner, rfl, hinner⟩
  rcases hinner.exists_single with ⟨changed, rfl⟩
  exact ⟨changed, rfl, hinner⟩

/-- An operation stays one, with its operands edited. -/
theorem exists_operation {op : Word} {left right : Shape}
    (h : EditedRow splice [left, .word op, right] other) :
    ∃ left' right', other = [left', .word op, right'] ∧ EditedRow splice [left] [left'] ∧
      EditedRow splice [right] [right'] := by
  rcases h.exists_cons with ⟨left', _, rfl, hleft, hbehind⟩
  rcases hbehind.exists_word with ⟨_, rfl, hlast⟩
  rcases hlast.exists_single with ⟨right', rfl⟩
  exact ⟨left', right', rfl, hleft, hlast⟩

/-- Words stay. -/
theorem eq_of_words (h : EditedRow splice row other)
    (hrow : ∀ shape ∈ row, ∃ it, shape = .word it) : other = row := by
  induction row generalizing other with
  | nil => exact h.eq_nil
  | cons shape row ih =>
    rcases hrow shape List.mem_cons_self with ⟨it, rfl⟩
    rcases h.exists_word with ⟨rest, rfl, hrest⟩
    rw [ih hrest fun shape hshape => hrow shape (List.mem_cons_of_mem _ hshape)]

theorem eq_of_word {it : Word} (h : EditedRow splice [.word it] other) : other = [.word it] :=
  h.eq_of_words fun _ hshape => ⟨it, List.mem_singleton.mp hshape⟩

/-! Single nodes that stay, by the row below them. -/

section Node

variable {kind : Kind}

theorem exists_node (h : EditedRow splice [.node kind row] other) (hkind : Stays kind) :
    ∃ inner, other = [.node kind inner] ∧ EditedRow splice row inner := by
  rcases h.exists_single with ⟨changed, rfl⟩
  rcases h.head.exists_node hkind with ⟨inner, rfl, hinner⟩
  exact ⟨inner, rfl, hinner⟩

/-- A node that begins with a word, such as a keyword or an operator. -/
theorem exists_led {it : Word} (h : EditedRow splice [.node kind (.word it :: row)] other)
    (hkind : Stays kind) :
    ∃ rest, other = [.node kind (.word it :: rest)] ∧ EditedRow splice row rest := by
  rcases h.exists_node hkind with ⟨_, rfl, hrow⟩
  rcases hrow.exists_word with ⟨rest, rfl, hrest⟩
  exact ⟨rest, rfl, hrest⟩

/-- A node that begins with an operand. -/
theorem exists_headed (h : EditedRow splice [.node kind (shape :: row)] other)
    (hkind : Stays kind) :
    ∃ changed rest, other = [.node kind (changed :: rest)] ∧
      EditedRow splice [shape] [changed] ∧ EditedRow splice row rest := by
  rcases h.exists_node hkind with ⟨_, rfl, hrow⟩
  rcases hrow.exists_cons with ⟨changed, rest, rfl, hshape, hrest⟩
  exact ⟨changed, rest, rfl, hshape, hrest⟩

/-- A node with a row between two words. -/
theorem exists_enclosed {opening closing : Word}
    (h : EditedRow splice [.node kind (.word opening :: (row ++ [Shape.word closing]))] other)
    (hkind : Stays kind) :
    ∃ inner, other = [.node kind (.word opening :: (inner ++ [Shape.word closing]))] ∧
      EditedRow splice row inner := by
  rcases h.exists_node hkind with ⟨_, rfl, hrow⟩
  rcases hrow.exists_between with ⟨inner, rfl, hinner⟩
  exact ⟨inner, rfl, hinner⟩

/-- A node with one shape between two words. -/
theorem exists_guarded {opening closing : Word}
    (h : EditedRow splice [.node kind [.word opening, shape, .word closing]] other)
    (hkind : Stays kind) :
    ∃ changed, other = [.node kind [.word opening, changed, .word closing]] ∧
      EditedRow splice [shape] [changed] := by
  rcases h.exists_node hkind with ⟨_, rfl, hrow⟩
  rcases hrow.exists_bracketed with ⟨changed, rfl, hchanged⟩
  exact ⟨changed, rfl, hchanged⟩

/-- What is called, and the list of arguments behind it. -/
theorem exists_called {opening closing : Word}
    (h : EditedRow splice
      [shape, .node .argList (.word opening :: (row ++ [Shape.word closing]))] other) :
    ∃ changed inner,
      other = [changed, .node .argList (.word opening :: (inner ++ [Shape.word closing]))] ∧
      EditedRow splice [shape] [changed] ∧ EditedRow splice row inner := by
  rcases h.exists_cons with ⟨changed, _, rfl, hshape, hlist⟩
  rcases hlist.exists_enclosed (by decide) with ⟨inner, rfl, hinner⟩
  exact ⟨changed, inner, rfl, hshape, hinner⟩

/-- A node of one word stays. -/
theorem eq_of_token {it : Word} (h : EditedRow splice [.node kind [.word it]] other)
    (hkind : Stays kind) : other = [.node kind [.word it]] := by
  rcases h.exists_led hkind with ⟨rest, rfl, hrest⟩
  rw [hrest.eq_nil]

end Node

end EditedRow

theorem EditedRow.stmts (h : EditedRow splice row other) : EditedStmts splice row other := by
  induction row generalizing other with
  | nil =>
    rw [h.eq_nil]
    exact .nil
  | cons shape row ih =>
    rcases h.exists_cons with ⟨changed, rest, rfl, hshape, hrest⟩
    exact .cons hshape.head (ih hrest)

/-! ## Expressions -/

/-- Nothing of an edited expression is assignable that was not. -/
theorem Edited.isAssignable_eq (h : Edited splice shape changed) :
    isAssignable changed.kind = isAssignable shape.kind := by
  rcases shape with it | ⟨kind, row⟩
  · rw [h.eq_word]
  · rcases h.node_cases with ⟨hold, rfl⟩ | ⟨_, rfl, _⟩ | ⟨_, rfl, _⟩
    · rw [hold]
      cases splice with
      | mk old new anchor hoists replaces => cases replaces <;> rfl
    · rfl
    · rfl

theorem continuesExpr_congr {least : Nat} {kind other : Kind}
    (h : isAssignable other = isAssignable kind) :
    continuesExpr least other = continuesExpr least kind := by
  funext word
  rw [continuesExpr, h]
  rfl

/-- Behind an expression stands nothing that its last operand would go on with. -/
theorem Derives.look_stops {symbol : Symbol} {look : Option Word} (h : Derives symbol look row)
    (hsymbol : symbol = .operand ∨ ∃ least, symbol = .operation least ∨ symbol = .expr least) :
    look.any continuesAccess = false := by
  induction h with
  | operand _ hlook => exact hlook
  | leading _ _ ih => exact ih (.inr ⟨_, .inr rfl⟩)
  | operation _ ih => exact ih (.inl rfl)
  | assign _ _ _ _ _ ih | short _ _ _ _ _ _ ih | binary _ _ _ _ _ ih => exact ih (.inr ⟨_, .inr rfl⟩)
  | ternary _ _ _ _ _ _ _ _ ih => exact ih (.inr ⟨_, .inr rfl⟩)
  | expr _ _ ih => exact ih (.inr ⟨_, .inl rfl⟩)
  | _ => exact absurd hsymbol (by simp only [reduceCtorEq, exists_false, or_false, not_false_eq_true])

/-- A literal stands where its concatenation stood. -/
theorem Replaces.derives {old new : Shape} (h : Replaces old new) (hexpr : old.kind.isExpr = true)
    {least : Nat} {look : Option Word} (hlook : look.any continuesAccess = false) :
    Derives (.operation least) look [new] := by
  cases h with
  | literal hword => exact .operation (.operand (.access (.token (by rw [hword]; rfl))) hlook)
  | condition => exact absurd hexpr Bool.false_ne_true

/-- A condition stands where its statement stood. -/
theorem Replaces.derivesStmt {old new : Shape} (h : Replaces old new)
    (hstmt : old.kind.isStatement = true) (look : Option Word) : DerivesStmt .stmt look [new] := by
  cases h with
  | literal => exact absurd hstmt Bool.false_ne_true
  | condition hderived => exact hderived look

theorem ParamVariable.eq_of_edited (h : ParamVariable row) (hedited : EditedRow splice row other) :
    other = row := by
  refine hedited.eq_of_words fun shape hshape => ?_
  cases h with
  | plain => exact ⟨_, List.mem_singleton.mp hshape⟩
  | marked =>
    rcases List.mem_cons.mp hshape with rfl | hshape
    · exact ⟨_, rfl⟩
    · exact ⟨_, List.mem_singleton.mp hshape⟩

theorem UnionMembers.eq_word {look : Option Word} (h : UnionMembers look row) :
    ∀ shape ∈ row, ∃ it, shape = .word it := by
  induction h with
  | done => exact fun shape hshape => absurd hshape List.not_mem_nil
  | more _ _ _ ih =>
    intro shape hshape
    rcases List.mem_cons.mp hshape with rfl | hshape
    · exact ⟨_, rfl⟩
    rcases List.mem_cons.mp hshape with rfl | hshape
    · exact ⟨_, rfl⟩
    · exact ih shape hshape

/-- There is no expression in a type. -/
theorem TypeShape.eq_of_edited {look : Option Word} (h : TypeShape look shape)
    (hedited : Edited splice shape changed) : changed = shape := by
  have hwords : ∃ row, shape = .node .typeRef row ∧ ∀ part ∈ row, ∃ it, part = .word it := by
    cases h with
    | plain _ hrow =>
      refine ⟨_, rfl, fun part hpart => ?_⟩
      rcases List.mem_cons.mp hpart with rfl | hpart
      · exact ⟨_, rfl⟩
      · exact hrow.eq_word part hpart
    | optional _ _ hrow =>
      refine ⟨_, rfl, fun part hpart => ?_⟩
      rcases List.mem_cons.mp hpart with rfl | hpart
      · exact ⟨_, rfl⟩
      rcases List.mem_cons.mp hpart with rfl | hpart
      · exact ⟨_, rfl⟩
      · exact hrow.eq_word part hpart
  -- A row of words has nothing that could be replaced.
  rcases hwords with ⟨row, rfl, hrow⟩
  rcases hedited.exists_node (by decide) with ⟨other, rfl, hother⟩
  rw [hother.eq_of_words hrow]

theorem ParamName.eq_of_edited (h : ParamName row) (hedited : EditedRow splice row other) :
    other = row := by
  cases h with
  | untyped hrow => exact hrow.eq_of_edited hedited
  | typed hrow htype =>
    rcases hedited.exists_cons with ⟨type', rest, rfl, htype', hrest⟩
    rw [htype.eq_of_edited htype'.head, hrow.eq_of_edited hrest]

theorem kind_operandKind? {kind operand : Kind} (h : operandKind? kind = some operand) :
    Stays operand := by
  rcases kind_of_operandKind? h with ⟨_, rfl⟩ | rfl | rfl | ⟨_, rfl⟩ <;> decide

theorem kind_classKind? {kind named : Kind} (h : classKind? kind = some named) :
    Stays named := by
  rcases kind_of_classKind? h with ⟨_, rfl⟩ | ⟨_, rfl⟩ <;> decide

theorem kind_accessKind? {kind access : Kind} (h : accessKind? kind = some access) :
    Stays access := by
  rcases kind_of_accessKind? h with ⟨_, rfl⟩ | ⟨_, rfl⟩ <;> decide

/-- A binary operation that is edited is one, or it is the concatenation that is replaced. -/
theorem Derives.edited_binary {least : Nat} {look : Option Word} {op : Word} {left right : Shape}
    {binding : Binding} (hbinding : binding? op.kind op.text = some binding)
    (hother : EditedRow splice [.node binding.kind [left, .word op, right]] other)
    (hlook : look.any continuesAccess = false)
    (hoperands : ∀ left' right', EditedRow splice [left] [left'] →
      EditedRow splice [right] [right'] →
        Derives (.operation least) look [.node binding.kind [left', .word op, right']]) :
    Derives (.operation least) look other := by
  have hkind := kind_binding? hbinding
  rcases hother.exists_single with ⟨_, rfl⟩
  rcases hother.head.node_cases with ⟨hold, rfl⟩ | ⟨_, rfl, hrow⟩ | ⟨_, _, hholder, _⟩
  · -- What ends the concatenation ends the literal.
    refine splice.replaces.derives ?_ hlook
    rw [← hold, Shape.kind]
    rcases hkind with hkind | hkind
    all_goals
      rw [hkind]
      rfl
  -- The edit is on one side.
  · rcases hrow.exists_operation with ⟨_, _, rfl, hleft, hright⟩
    exact hoperands _ _ hleft hright
  · rcases hkind with hkind | hkind
    all_goals
      rw [hkind] at hholder
      exact absurd hholder Bool.false_ne_true

/-- An expression that is edited is derived in the same place, in front of the same word. -/
theorem Derives.edited {symbol : Symbol} {look : Option Word} (h : Derives symbol look row)
    (hother : EditedRow splice row other) : Derives symbol look other := by
  -- Each case says which parts of the row are edited by themselves, and derives them again.
  induction h generalizing other with
  | token hkind =>
    rw [hother.eq_of_token (kind_operandKind? hkind)]
    exact .token hkind
  | paren hopening hclosing _ ih =>
    rcases hother.exists_guarded (by decide) with ⟨_, rfl, hvalue⟩
    exact .paren hopening hclosing (ih hvalue)
  | array hopening hclosing _ ih =>
    rcases hother.exists_enclosed (by decide) with ⟨_, rfl, hinner⟩
    exact .array hopening hclosing (ih hinner)
  | new hkeyword hname hlook =>
    rcases hother.exists_led (by decide) with ⟨_, rfl, hnamed⟩
    rw [hnamed.eq_of_token (kind_classKind? hname)]
    exact .new hkeyword hname hlook
  | newWith hkeyword hname hopening hclosing _ ih =>
    rcases hother.exists_led (by decide) with ⟨_, rfl, hbehind⟩
    rcases hbehind.exists_called with ⟨_, _, rfl, hnamed, hinner⟩
    rw [List.singleton_inj.mp (hnamed.eq_of_token (kind_classKind? hname))]
    exact .newWith hkeyword hname hopening hclosing (ih hinner)
  | access _ ih =>
    rcases hother.exists_single with ⟨_, rfl⟩
    exact .access (ih hother)
  -- The callee and the arguments are edited apart.
  | call _ hopening hclosing _ ihbase ihrow =>
    rcases hother.exists_node (by decide) with ⟨_, rfl, hrow⟩
    rcases hrow.exists_called with ⟨_, _, rfl, hbase, hinner⟩
    exact .call (ihbase hbase) hopening hclosing (ihrow hinner)
  | append _ hopening hclosing ih =>
    rcases hother.exists_headed (by decide) with ⟨_, _, rfl, hbase, hwords⟩
    rcases hwords.exists_word with ⟨_, rfl, hlast⟩
    rw [hlast.eq_of_word]
    exact .append (ih hbase) hopening hclosing
  | index _ hopening hclosing _ ihbase ihinner =>
    rcases hother.exists_headed (by decide) with ⟨_, _, rfl, hbase, hbehind⟩
    rcases hbehind.exists_bracketed with ⟨_, rfl, hvalue⟩
    exact .index (ihbase hbase) hopening hclosing (ihinner hvalue)
  | memberOf _ hop _ ihbase ihrow =>
    rcases hother.exists_headed (kind_accessKind? hop) with ⟨_, _, rfl, hbase, hbehind⟩
    rcases hbehind.exists_word with ⟨_, rfl, hmember⟩
    exact .memberOf (ihbase hbase) hop (ihrow hmember)
  | step _ hop hstep ih =>
    rcases hother.exists_headed (by decide) with ⟨_, _, rfl, hbase, hlast⟩
    rw [hlast.eq_of_word]
    exact .step (ih hbase) hop hstep
  | memberWord hname =>
    rw [hother.eq_of_word]
    exact .memberWord hname
  | memberVariable hname =>
    rw [hother.eq_of_token (by decide)]
    exact .memberVariable hname
  | memberBraces hopening hclosing _ ih =>
    rcases hother.exists_bracketed with ⟨_, rfl, hvalue⟩
    exact .memberBraces hopening hclosing (ih hvalue)
  | operand _ hlook ih =>
    rcases hother.exists_single with ⟨_, rfl⟩
    exact .operand (ih hother) hlook
  | leading hop _ ih =>
    rcases hother.exists_led (by decide) with ⟨_, rfl, hbehind⟩
    rcases hbehind.exists_single with ⟨_, rfl⟩
    exact .leading hop (ih hbehind)
  | operation _ ih =>
    rcases hother.exists_single with ⟨_, rfl⟩
    exact .operation (ih hother)
  -- An edited target can still be assigned to.
  | assign _ hop htarget _ ihleft ihright =>
    rcases hother.exists_node (by decide) with ⟨_, rfl, hrow⟩
    rcases hrow.exists_operation with ⟨_, _, rfl, hleft, hright⟩
    exact .assign (ihleft hleft) hop (hleft.head.isAssignable_eq.trans htarget) (ihright hright)
  | short _ hquestion hleast hcolon _ ihleft ihright =>
    rcases hother.exists_headed (by decide) with ⟨_, _, rfl, hleft, hbehind⟩
    rcases hbehind.exists_word with ⟨_, rfl, hcolons⟩
    rcases hcolons.exists_word with ⟨_, rfl, hright⟩
    rcases hright.exists_single with ⟨_, rfl⟩
    exact .short (ihleft hleft) hquestion hleast hcolon (ihright hright)
  | ternary _ hquestion hleast _ hcolon _ ihleft ihmiddle ihright =>
    rcases hother.exists_headed (by decide) with ⟨_, _, rfl, hleft, hbehind⟩
    rcases hbehind.exists_word with ⟨_, rfl, hparts⟩
    rcases hparts.exists_operation with ⟨_, _, rfl, hmiddle, hright⟩
    exact .ternary (ihleft hleft) hquestion hleast (ihmiddle hmiddle) hcolon (ihright hright)
  -- The operation may be the concatenation that is replaced.
  | binary _ hbinding hleast hright ihleft ihright =>
    exact Derives.edited_binary hbinding hother (hright.look_stops (.inr ⟨_, .inr rfl⟩))
      fun _ _ hleft hright' => .binary (ihleft hleft) hbinding hleast (ihright hright')
  -- What may not follow depends on whether the expression can be assigned to.
  | expr _ hlook ih =>
    rcases hother.exists_single with ⟨_, rfl⟩
    refine .expr (ih hother) ?_
    rw [continuesExpr_congr hother.head.isAssignable_eq]
    exact hlook
  | argument _ ih =>
    rcases hother.exists_single with ⟨_, rfl⟩
    exact .argument (ih hother)
  | element _ hlook ih =>
    rcases hother.exists_node (by decide) with ⟨_, rfl, hrow⟩
    rcases hrow.exists_single with ⟨_, rfl⟩
    exact .element (ih hrow) hlook
  | keyed _ harrow _ ihkey ihvalue =>
    rcases hother.exists_node (by decide) with ⟨_, rfl, hrow⟩
    rcases hrow.exists_operation with ⟨_, _, rfl, hkey, hvalue⟩
    exact .keyed (ihkey hkey) harrow (ihvalue hvalue)
  | param hrow hlook =>
    rcases hother.exists_node (by decide) with ⟨_, rfl, hrow'⟩
    rw [hrow.eq_of_edited hrow']
    exact .param hrow hlook
  | paramDefault hrow hequals _ ih =>
    rcases hother.exists_node (by decide) with ⟨_, rfl, hrow'⟩
    rcases hrow'.exists_append with ⟨_, _, rfl, hname, hbehind⟩
    rcases hbehind.exists_word with ⟨_, rfl, hvalue⟩
    rcases hvalue.exists_single with ⟨_, rfl⟩
    rw [hrow.eq_of_edited hname]
    exact .paramDefault hrow hequals (ih hvalue)
  | none hlook =>
    rw [hother.eq_nil]
    exact .none hlook
  | last _ hlook ih =>
    rcases hother.exists_single with ⟨_, rfl⟩
    exact .last (ih hother) hlook
  | more _ hcomma _ ihitem ihrow =>
    rcases hother.exists_cons with ⟨_, _, rfl, hitem, hbehind⟩
    rcases hbehind.exists_word with ⟨_, rfl, hrow⟩
    exact .more (ihitem hitem) hcomma (ihrow hrow)

/-! ## Statements -/

theorem Exprs.edited {look : Option Word} (h : Exprs look row)
    (hother : EditedRow splice row other) : Exprs look other := by
  induction h generalizing other with
  | one hvalue hlook =>
    rcases hother.exists_single with ⟨_, rfl⟩
    exact .one (hvalue.edited hother) hlook
  | more hvalue hcomma _ ih =>
    rcases hother.exists_cons with ⟨_, _, rfl, hchanged, hbehind⟩
    rcases hbehind.exists_word with ⟨_, rfl, hrow⟩
    exact .more (hvalue.edited hchanged) hcomma (ih hrow)

theorem Guard.edited (h : Guard row) (hother : EditedRow splice row other) : Guard other := by
  cases h with
  | mk hopening hclosing hinner =>
    rcases hother.exists_bracketed with ⟨_, rfl, hchanged⟩
    exact .mk hopening hclosing (hinner.edited hchanged)

theorem ForPart.edited {terminator : Kind} (h : ForPart terminator row)
    (hother : EditedRow splice row other) : ForPart terminator other := by
  cases h with
  | empty hstop =>
    rw [hother.eq_of_word]
    exact .empty hstop
  | exprs hrow hstop =>
    rcases hother.exists_append with ⟨_, _, rfl, hfront, hback⟩
    rw [hback.eq_of_word]
    exact .exprs (hrow.edited hfront) hstop

theorem EachTarget.edited {look : Option Word} (h : EachTarget look row)
    (hother : EditedRow splice row other) : EachTarget look other := by
  cases h with
  | value hvalue hlook =>
    rcases hother.exists_single with ⟨_, rfl⟩
    exact .value (hvalue.edited hother) hlook
  | keyed hkey harrow hvalue =>
    rcases hother.exists_operation with ⟨_, _, rfl, hkey', hvalue'⟩
    exact .keyed (hkey.edited hkey') harrow (hvalue.edited hvalue')

theorem LoopHead.edited {kind : Kind} (h : LoopHead kind row)
    (hother : EditedRow splice row other) : LoopHead kind other := by
  cases h with
  | whileHead hrow => exact .whileHead (hrow.edited hother)
  | forHead hopening hfirst hsecond hthird =>
    rcases hother.exists_word with ⟨_, rfl, hparts⟩
    rcases hparts.exists_append with ⟨_, _, rfl, hfront, hthird'⟩
    rcases hfront.exists_append with ⟨_, _, rfl, hfirst', hsecond'⟩
    exact .forHead hopening (hfirst.edited hfirst') (hsecond.edited hsecond')
      (hthird.edited hthird')
  -- The brackets and the words between the parts are kept.
  | eachHead hopening hsubject hseparator htarget hclosing =>
    rcases hother.exists_word with ⟨_, rfl, hparts⟩
    rcases hparts.exists_cons with ⟨_, _, rfl, hsubject', hbehind⟩
    rcases hbehind.exists_word with ⟨_, rfl, hlast⟩
    rcases hlast.exists_append with ⟨_, _, rfl, htarget', hback⟩
    rw [hback.eq_of_word]
    exact .eachHead hopening (hsubject.edited hsubject') hseparator (htarget.edited htarget')
      hclosing

theorem FunctionName.eq_of_edited (h : FunctionName row) (hother : EditedRow splice row other) :
    other = row := by
  refine hother.eq_of_words fun shape hshape => ?_
  cases h with
  | plain => exact ⟨_, List.mem_singleton.mp hshape⟩
  | marked =>
    rcases List.mem_cons.mp hshape with rfl | hshape
    · exact ⟨_, rfl⟩
    · exact ⟨_, List.mem_singleton.mp hshape⟩

theorem ResultType.eq_of_edited {look : Option Word} (h : ResultType look row)
    (hother : EditedRow splice row other) : other = row := by
  cases h with
  | none => exact hother.eq_nil
  | some _ htype =>
    rcases hother.exists_word with ⟨_, rfl, hbehind⟩
    rcases hbehind.exists_single with ⟨_, rfl⟩
    rw [htype.eq_of_edited hbehind.head]

theorem FunctionHead.edited {look : Option Word} (h : FunctionHead look row)
    (hother : EditedRow splice row other) : FunctionHead look other := by
  cases h with
  | mk hname hopening hrow hclosing hresult =>
    rcases hother.exists_append with ⟨_, _, rfl, hname', hbehind⟩
    rcases hbehind.exists_cons with ⟨_, _, rfl, hlist, hresult'⟩
    rcases hlist.exists_enclosed (by decide) with ⟨_, hlist', hinner⟩
    rw [List.singleton_inj.mp hlist', hname.eq_of_edited hname', hresult.eq_of_edited hresult']
    exact .mk hname hopening (hrow.edited hinner) hclosing hresult

/-- A statement that ends in front of one word ends in front of another one. -/
structure Ends (look behind : Option Word) : Prop where
  elseif : aheadKind look ≠ .elseifKw → aheadKind behind ≠ .elseifKw
  otherwise : aheadKind look ≠ .elseKw → aheadKind behind ≠ .elseKw

theorem Ends.refl (look : Option Word) : Ends look look := ⟨id, id⟩

/-- Whatever a row of statements begins with, the statement before it ends there. -/
theorem Ends.of_stmts {look behind : Option Word} (hends : Ends look behind)
    (hnil : other = [] → row = []) (hother : DerivesStmt .stmts behind other) :
    Ends (lookBefore row look) (lookBefore other behind) := by
  cases hother with
  | nil =>
    rw [hnil rfl]
    exact hends
  | cons hfirst _ =>
    rcases BeginsWith.append hfirst.begins with ⟨word, words, hwords, hstart⟩
    rw [List.singleton_append] at hwords
    rw [show lookBefore (_ :: _) behind = some word by rw [lookBefore, hwords]; rfl]
    exact ⟨fun _ => StmtStart.ne hstart rfl, fun _ => StmtStart.ne hstart rfl⟩

theorem EditedStmts.eq_nil_iff (h : EditedStmts splice row other) : other = [] ↔ row = [] := by
  cases h with
  | nil => exact ⟨fun _ => rfl, fun _ => rfl⟩
  | cons | hoist =>
    simp only [List.append_eq_nil_iff, reduceCtorEq, and_false]

theorem EditedStmts.exists_append {more : List Shape} (h : EditedStmts splice (row ++ more) other) :
    ∃ front back, other = front ++ back ∧ EditedStmts splice row front ∧
      EditedStmts splice more back := by
  induction row generalizing other with
  | nil => exact ⟨[], other, rfl, .nil, h⟩
  | cons shape row ih =>
    rw [List.cons_append] at h
    cases h with
    | cons hshape hrow =>
      rcases ih hrow with ⟨front, back, rfl, hfront, hback⟩
      exact ⟨_ :: front, back, rfl, .cons hshape hfront, hback⟩
    -- What is hoisted goes with its anchor.
    | hoist hanchor hrow =>
      rcases ih hrow with ⟨front, back, rfl, hfront, hback⟩
      refine ⟨splice.hoists ++ _ :: front, back, ?_, .hoist hanchor hfront, hback⟩
      rw [List.append_assoc, List.cons_append]

/-- A word among statements stays. -/
theorem EditedStmts.exists_word {it : Word} (h : EditedStmts splice (.word it :: row) other) :
    ∃ rest, other = .word it :: rest ∧ EditedStmts splice row rest := by
  generalize hword : Shape.word it = shape at h
  cases h with
  | cons hshape hrow =>
    subst hword
    rw [hshape.eq_word]
    exact ⟨_, rfl, hrow⟩
  | hoist =>
    rcases splice.anchor_shape with ⟨kind, children, hanchor⟩
    exact absurd (hword.trans hanchor) (by simp only [reduceCtorEq, not_false_eq_true])

/-- The statements of a block are edited between its braces. -/
theorem EditedRow.exists_block {opening closing : Word}
    (h : EditedRow splice [.node .block (.word opening :: (row ++ [Shape.word closing]))] other) :
    ∃ inner, other = [.node .block (.word opening :: (inner ++ [Shape.word closing]))] ∧
      EditedStmts splice row inner := by
  have hstmts : ∃ changed, other = [.node .block changed] ∧
      EditedStmts splice (.word opening :: (row ++ [Shape.word closing])) changed := by
    rcases h.exists_single with ⟨_, rfl⟩
    -- A block is never what is replaced, for that is an expression.
    rcases h.head.node_cases with ⟨hold, _⟩ | ⟨changed, rfl, hrow⟩ | ⟨changed, rfl, _, hrow⟩
    · rcases splice.old_shape with ⟨_, _, hshape, hkind⟩
      rw [hshape, Shape.node.injEq] at hold
      rw [← hold.1] at hkind
      exact absurd hkind (by decide)
    · exact ⟨changed, rfl, hrow.stmts⟩
    · exact ⟨changed, rfl, hrow⟩
  rcases hstmts with ⟨_, rfl, hother⟩
  rcases hother.exists_word with ⟨_, rfl, hrest⟩
  rcases hrest.exists_append with ⟨inner, _, rfl, hinner, hback⟩
  rcases hback.exists_word with ⟨_, rfl, hnil⟩
  rw [hnil.eq_nil_iff.mpr rfl]
  exact ⟨inner, rfl, hinner⟩

/-- The branches of a condition keep their keywords, so what ended in front of them ends there. -/
theorem Ends.of_branches {look behind : Option Word} (hends : Ends look behind)
    (hrow : DerivesStmt .branches look row) (hother : EditedRow splice row other) :
    Ends (lookBefore row look) (lookBefore other behind) := by
  -- If there are branches, the next word is the keyword of the first, edited or not.
  cases hrow with
  | noBranch =>
    rw [hother.eq_nil]
    exact hends
  | elseif =>
    rcases hother.exists_cons with ⟨_, _, rfl, hclause, _⟩
    rcases hclause.exists_led (by decide) with ⟨_, hclause', _⟩
    rw [List.singleton_inj.mp hclause']
    exact .refl _
  | otherwise =>
    rcases hother.exists_led (by decide) with ⟨_, rfl, _⟩
    exact .refl _

/-- Statements that stand anywhere stand in front of others. -/
theorem DerivesStmt.hoists {hoists : List Shape} {look : Option Word}
    (hhoists : ∀ hoist ∈ hoists, ∀ look, DerivesStmt .stmt look [hoist])
    (h : DerivesStmt .stmts look row) : DerivesStmt .stmts look (hoists ++ row) := by
  induction hoists with
  | nil => exact h
  | cons hoist hoists ih =>
    exact .cons (hhoists hoist List.mem_cons_self _)
      (ih fun hoist hhoist => hhoists hoist (List.mem_cons_of_mem _ hhoist))

/-- How the row of a place is edited. -/
def Part.Edited (splice : Splice) (row other : List Shape) : Part → Prop
  | .stmts => EditedStmts splice row other
  | .stmt | .branches => EditedRow splice row other

theorem kind_jumpKind? {kind jump : Kind} (h : jumpKind? kind = some jump) :
    Stays jump :=
  (by decide : ∀ jump ∈ [Kind.returnStmt, .breakStmt, .continueStmt], Stays jump) jump
      (mem_of_jumpKind? h)

theorem kind_loopKind? {kind loop : Kind} (h : loopKind? kind = some loop) :
    Stays loop :=
  (by decide : ∀ loop ∈ [Kind.whileStmt, .forStmt, .foreachStmt], Stays loop) loop
      (mem_of_loopKind? h)

/-- A statement that is an expression, edited or replaced as a whole. -/
theorem DerivesStmt.edited_expr {value : Shape} {stop : Word} (hstop : stop.kind = .semicolon)
    (hvalue : Derives (.expr 0) (some stop) [value])
    (hother : EditedRow splice [.node .exprStmt [value, .word stop]] other)
    (behind : Option Word) : DerivesStmt .stmt behind other := by
  rcases hother.exists_single with ⟨_, rfl⟩
  rcases hother.head.node_cases with ⟨hold, rfl⟩ | ⟨_, rfl, hrow⟩ | ⟨_, _, hholder, _⟩
  · exact splice.replaces.derivesStmt (by rw [← hold]; rfl) behind
  · rcases hrow.exists_cons with ⟨_, _, rfl, hchanged, hback⟩
    rw [hback.eq_of_word]
    exact .expr hstop (hvalue.edited hchanged)
  · exact absurd hholder Bool.false_ne_true

/-- Statements that are edited are derived in the same place, in front of every word that ends
    them. -/
theorem DerivesStmt.edited {part : Part} {look behind : Option Word}
    (h : DerivesStmt part look row) (hends : Ends look behind)
    (hother : part.Edited splice row other) : DerivesStmt part behind other := by
  induction h generalizing behind other with
  | block hopening hclosing _ ih =>
    rcases EditedRow.exists_block hother with ⟨_, rfl, hinner⟩
    exact .block hopening hclosing (ih (.refl _) hinner)
  | expr hstop hvalue => exact DerivesStmt.edited_expr hstop hvalue hother behind
  | echo hkeyword hrow hstop =>
    rcases EditedRow.exists_enclosed hother (by decide) with ⟨_, rfl, hinner⟩
    exact .echo hkeyword (hrow.edited hinner) hstop
  | jump hkeyword hstop =>
    rcases EditedRow.exists_led hother (kind_jumpKind? hkeyword) with ⟨_, rfl, hback⟩
    rw [hback.eq_of_word]
    exact .jump hkeyword hstop
  | jumpWith hkeyword hvalue hstop =>
    rcases EditedRow.exists_guarded hother (kind_jumpKind? hkeyword) with ⟨_, rfl, hchanged⟩
    exact .jumpWith hkeyword (hvalue.edited hchanged) hstop
  -- The body is followed by the branches, or by what follows the statement.
  | choice hkeyword hguard _ hbranches ihbody ihrow =>
    rcases EditedRow.exists_led hother (by decide) with ⟨_, rfl, hbehind⟩
    rcases hbehind.exists_append with ⟨_, _, rfl, hguard', hback⟩
    rcases hback.exists_cons with ⟨_, _, rfl, hbody', hrow'⟩
    exact .choice hkeyword (hguard.edited hguard')
      (ihbody (hends.of_branches hbranches hrow') hbody') (ihrow hends hrow')
  | loop hkeyword hhead _ ih =>
    rcases EditedRow.exists_led hother (kind_loopKind? hkeyword) with ⟨_, rfl, hbehind⟩
    rcases hbehind.exists_append with ⟨_, _, rfl, hhead', hbody'⟩
    rcases hbody'.exists_single with ⟨_, rfl⟩
    exact .loop hkeyword (hhead.edited hhead') (ih hends hbody')
  | doWhile hkeyword _ hwhile hguard hstop ih =>
    rcases EditedRow.exists_led hother (by decide) with ⟨_, rfl, hbehind⟩
    rcases hbehind.exists_cons with ⟨_, _, rfl, hbody', hagain⟩
    rcases hagain.exists_word with ⟨_, rfl, hlast⟩
    rcases hlast.exists_append with ⟨_, _, rfl, hguard', hback⟩
    rw [hback.eq_of_word]
    exact .doWhile hkeyword (ih (.refl _) hbody') hwhile (hguard.edited hguard') hstop
  | function hkeyword hhead hopening hclosing _ ih =>
    rcases EditedRow.exists_led hother (by decide) with ⟨_, rfl, hbehind⟩
    rcases hbehind.exists_append with ⟨_, _, rfl, hhead', hback⟩
    rcases hback.exists_block with ⟨_, rfl, hinner⟩
    exact .function hkeyword (hhead.edited hhead') hopening hclosing (ih (.refl _) hinner)
  | empty hstop =>
    rw [EditedRow.eq_of_token hother (by decide)]
    exact .empty hstop
  | nil =>
    rw [EditedStmts.eq_nil_iff hother |>.mpr rfl]
    exact .nil
  | cons _ _ ihfirst ihrow =>
    -- In front of the statement there may be others, and they are derived whatever follows.
    cases hother with
    | cons hfirst hrow =>
      have hderived := ihrow hends hrow
      exact .cons (ihfirst (hends.of_stmts hrow.eq_nil_iff.mp hderived) (EditedRow.single hfirst))
        hderived
    | hoist hanchor hrow =>
      have hderived := ihrow hends hrow
      exact .hoists splice.hoists_derived
        (.cons (ihfirst (hends.of_stmts hrow.eq_nil_iff.mp hderived) (EditedRow.single hanchor))
          hderived)
  -- Without a branch the words behind decide that there is none.
  | noBranch helseif hotherwise =>
    rw [EditedRow.eq_nil hother]
    exact .noBranch (hends.elseif helseif) (hends.otherwise hotherwise)
  | elseif hkeyword hguard _ hbranches ihbody ihrow =>
    rcases EditedRow.exists_cons hother with ⟨_, _, rfl, hclause, hrow'⟩
    rcases hclause.exists_led (by decide) with ⟨_, hclause', hbehind⟩
    rcases hbehind.exists_append with ⟨_, _, rfl, hguard', hbody'⟩
    rcases hbody'.exists_single with ⟨_, rfl⟩
    rw [List.singleton_inj.mp hclause']
    exact .elseif hkeyword (hguard.edited hguard')
      (ihbody (hends.of_branches hbranches hrow') hbody') (ihrow hends hrow')
  | otherwise hkeyword _ ih =>
    rcases EditedRow.exists_led hother (by decide) with ⟨_, rfl, hbody'⟩
    rcases hbody'.exists_single with ⟨_, rfl⟩
    exact .otherwise hkeyword (ih hends hbody')

/-! ## Around a gap -/

theorem EditedRow.append {more others : List Shape} (h : EditedRow splice row other)
    (hmore : EditedRow splice more others) : EditedRow splice (row ++ more) (other ++ others) := by
  induction row generalizing other with
  | nil =>
    rw [h.eq_nil]
    exact hmore
  | cons shape row ih =>
    rcases h.exists_cons with ⟨changed, rest, rfl, hshape, hrest⟩
    exact .cons hshape.head (ih hrest)

/-- What is put in stands in the gap of what is taken out. -/
theorem EditedRow.fill (splice : Splice) (frame : Tree.Frame) :
    EditedRow splice (frame.fillShape [splice.old]) (frame.fillShape [splice.new]) := by
  induction frame with
  | here before after =>
    exact (refl splice _).append (.cons .replaced (refl splice _))
  | inside before kind frame after ih =>
    exact (refl splice _).append (.cons (.node ih) (refl splice _))

/-- Statements put in front of the statement in a gap. -/
theorem EditedStmts.fill {changed : Shape} (h : Edited splice splice.anchor changed)
    (before after : List Tree) :
    EditedStmts splice ((Tree.Frame.here before after).fillShape [splice.anchor])
      ((Tree.Frame.here before after).fillShape (splice.hoists ++ [changed])) := by
  have hbehind : EditedStmts splice (splice.anchor :: Tree.shapesOf after)
      (splice.hoists ++ changed :: Tree.shapesOf after) :=
    .hoist h (EditedRow.refl splice _).stmts
  rw [Tree.Frame.fillShape, Tree.Frame.fillShape, List.append_assoc]
  induction Tree.shapesOf before with
  | nil => exact hbehind
  | cons shape row ih => exact .cons (Edited.refl splice shape) ih

/-- Statements put in front of the statement in a gap below a node. -/
theorem EditedRow.fill_stmts {changed : Shape} (h : Edited splice splice.anchor changed)
    {before after : List Tree} {kind : Kind} {frame : Tree.Frame}
    (hholder : (frame.holder?.getD kind).holdsStatements = true) :
    EditedRow splice ((Tree.Frame.inside before kind frame after).fillShape [splice.anchor])
      ((Tree.Frame.inside before kind frame after).fillShape (splice.hoists ++ [changed])) := by
  refine (refl splice _).append (.cons ?_ (refl splice _))
  induction frame generalizing kind with
  | here front back => exact .holder hholder (.fill h front back)
  | inside front kind' frame back ih =>
    have hinner : (frame.holder?.getD kind').holdsStatements = true := hholder
    exact .node ((refl splice _).append (.cons (ih hinner) (refl splice _)))

/-- Statements put in front of a statement that is a child of a node that holds statements. -/
theorem EditedStmts.of_frame {changed : Shape} (h : Edited splice splice.anchor changed)
    (frame : Tree.Frame)
    (hholder : ∀ kind, frame.holder? = some kind → kind.holdsStatements = true) :
    EditedStmts splice (frame.fillShape [splice.anchor])
      (frame.fillShape (splice.hoists ++ [changed])) := by
  cases frame with
  | here before after => exact .fill h before after
  | inside before kind frame after => exact (EditedRow.fill_stmts h (hholder _ rfl)).stmts

/-- A file that is edited is one. -/
theorem DerivesFile.edited (h : DerivesFile row) (hedited : EditedStmts splice row other) :
    DerivesFile other := by
  cases h with
  | bare hrow => exact .bare (hrow.edited (.refl _) hedited)
  | tagged htag hrow =>
    rcases hedited.exists_word with ⟨rest, rfl, hrest⟩
    exact .tagged htag (hrow.edited (.refl _) hrest)

end Grammar

end PhpAssist

import Mathlib.Data.List.Forall2
import PhpAssist.Proofs.NameSeries
import PhpAssist.Proofs.Resolutions

/-!
# What becomes of each operand

Operands are resolved from left to right. What becomes of one of them depends on the others in one
way only, by the names that are in use when its turn comes, and that can matter for nothing but the
number behind a new name. So the slots and the hoists of a row can be told operand by operand: one
outcome for each, with the text that takes the operand's place, the statement that is hoisted for it
if it cannot be read in a string, and the name of a new variable if that statement needs one.

Nothing else can go wrong than what is wrong with an operand by itself, and of several such operands
the first one is reported.

## Main definitions

* `Tree.isInline`: An operand that is read where it stands.
* `Tree.refusal?`: What is wrong with an operand that has no resolution.
* `Tree.IsOfClass`: What a class of expressions says about a kind.
* `Resolution.Outcome`, `Resolution.Outcome.Of`: What becomes of an operand.

## Theorems

* `Tree.isOfClass`: The kinds behind the classes of expressions.
* `Resolution.operand_cases`: One operand.
* `Resolution.ofFrom_eq_error_iff`, `Resolution.outcomes_of_ofFrom`: A row of operands.
* `Resolution.resolves_row`: A row of operands either has one that is refused, or an outcome for
  each, with names that are new.
-/

namespace PhpAssist

namespace Tree

/-- The kinds of loops. -/
def loops : List Kind := [.whileStmt, .doWhileStmt, .forStmt, .foreachStmt]

/-- Whether an operand is an access that reads the same in a string. -/
def isAccess (operand : Tree) : Bool :=
  (operand.kind == .memberExpr || operand.kind == .indexExpr) && operand.isInterpolatable

/-- Whether an operand is read where it stands: a string literal, a variable, or an access that
    reads the same in a string. -/
def isInline (operand : Tree) : Bool :=
  operand.kind == .stringLiteral || operand.kind == .variable || operand.isAccess

/-- What is wrong with an operand that has no resolution: it is a loop, or a string literal that
    cannot stand in a heredoc. -/
def refusal? (operand : Tree) : Option AssistError :=
  if operand.kind ∈ loops then some (.noResolution .loop)
  else if operand.kind = .stringLiteral then
    match Literal.heredocContent operand with
    | .ok _ => none
    | .error error => some error
  else none

/-- Something is wrong with loops, and with literals that cannot stand in a heredoc. -/
theorem isSome_refusal? (operand : Tree) : operand.refusal?.isSome = true ↔
    operand.kind ∈ loops ∨
      (operand.kind = .stringLiteral ∧
        ∃ error, Literal.heredocContent operand = .error error) := by
  rw [refusal?]
  -- A loop is refused whatever else it is.
  by_cases hloop : operand.kind ∈ loops
  · simp only [hloop, if_true, Option.isSome_some, true_or]
  by_cases hliteral : operand.kind = .stringLiteral
  · rw [if_neg hloop, if_pos hliteral]
    rcases hcontent : Literal.heredocContent operand with error | content
    · exact ⟨fun _ => .inr ⟨hliteral, error, rfl⟩, fun _ => rfl⟩
    · simp only [hloop, Option.isSome_none, Bool.false_eq_true, reduceCtorEq, exists_false,
        and_false, or_self]
  · simp only [hloop, hliteral, if_false, Option.isSome_none, Bool.false_eq_true, false_and,
      or_self]

/-- What the classes of expressions say about the kind of a tree. -/
def IsOfClass (tree : Tree) : ExprClass → Prop
  | .stringLiteral => tree.kind = .stringLiteral
  | .simpleVariable => tree.kind = .variable
  | .memberOrIndexAccess => tree.isAccess = true
  | .assignment => tree.kind = .assignExpr
  | .call => tree.kind ∈ [.callExpr, .newExpr]
  | .loop => tree.kind ∈ loops
  | .ternary | .concatenation | .genericExpression =>
    tree.isInline = false ∧ tree.kind ∉ [.assignExpr, .callExpr, .newExpr] ∧ tree.kind ∉ loops

/-- The kinds behind the classes of expressions. -/
theorem isOfClass (tree : Tree) : tree.IsOfClass tree.exprClass := by
  unfold exprClass
  split
  case h_3 hkind | h_4 hkind =>
    -- An access is told from any other by whether it reads the same in a string.
    split
    · rename_i hreads
      simp only [IsOfClass, isAccess, hkind, hreads, beq_self_eq_true, Bool.or_true, Bool.true_or,
        Bool.and_self]
    · rename_i hreads
      rw [Bool.not_eq_true] at hreads
      simp only [IsOfClass, isInline, isAccess, hkind, hreads]
      decide
  all_goals simp_all [IsOfClass, isInline, isAccess, loops]

end Tree

namespace Resolution

/-- What becomes of an operand: the text in its place, the statement that is hoisted for it, and the
    name of the variable that is new with it. -/
structure Outcome where
  text : Text
  hoist : Option Hoist
  name : Option Text

/-- What a new variable for an operand is called: what it holds, and the position of the operand. -/
def newBase (operand : Tree) (ordinal : Nat) : Text :=
  (if operand.kind ∈ [.callExpr, .newExpr] then "newVarFnCall" else "newVarPhpExpression").toList ++
    Text.ofNat ordinal

/-- The name that an operand asks for, if it needs a new variable. -/
def newBase? (operand : Tree) (ordinal : Nat) : Option Text :=
  if operand.needsVariable then some (newBase operand ordinal) else none

namespace Outcome

/-- The outcomes that an operand can have at a position. What is hoisted is either the operand
    itself, an assignment whose target is read in its place, or its assignment to a new variable. -/
inductive Of (operand : Tree) (ordinal : Nat) : Outcome → Prop
  | literal {content : Text} (hkind : operand.kind = .stringLiteral)
      (hcontent : Literal.heredocContent operand = .ok content) :
      Of operand ordinal ⟨content, none, none⟩
  | read (hkind : operand.kind = .variable ∨ operand.isAccess = true) :
      Of operand ordinal ⟨braced operand.trimmed, none, none⟩
  | own {target : Tree} (hkind : operand.kind = .assignExpr)
      (htarget : assignmentTarget? operand = some target) :
      Of operand ordinal
        ⟨braced target.trimmed, some ⟨target.trimmed, operand.trimmed ++ [';']⟩, none⟩
  | new {name : Text} {number : Nat} (hinline : operand.isInline = false)
      (hloop : operand.kind ∉ Tree.loops)
      (hassign : operand.kind = .assignExpr → assignmentTarget? operand = none)
      (hname : name = Names.candidate (newBase operand ordinal) number) :
      Of operand ordinal ⟨braced ('$' :: name),
        some ⟨name, '$' :: name ++ " = ".toList ++ operand.trimmed ++ [';']⟩, some name⟩

/-- The step that leads to an outcome. The new name gets into use. -/
def step (outcome : Outcome) (names : Names) : Step :=
  ⟨outcome.text, outcome.hoist, ⟨outcome.name.toList ++ names.taken⟩⟩

variable {operand : Tree} {ordinal : Nat} {outcome : Outcome}

/-- A statement is hoisted for every operand but those that are read where they stand. -/
theorem Of.isSome_hoist (h : Of operand ordinal outcome) :
    outcome.hoist.isSome = !operand.isInline := by
  cases h with
  | literal hkind => simp only [Tree.isInline, hkind, beq_self_eq_true, Bool.true_or]; rfl
  | read hkind =>
    rcases hkind with hkind | hkind
    · simp only [Tree.isInline, hkind, beq_self_eq_true, Bool.true_or, Bool.or_true]; rfl
    · simp only [Tree.isInline, hkind, Bool.or_true]; rfl
  | own hkind => simp only [Tree.isInline, Tree.isAccess, hkind]; rfl
  | new hinline => rw [hinline]; rfl

end Outcome

variable {operands : List Tree} {names after : Names} {resolution : Resolution} {tree : Tree}
  {index : Nat} {error : AssistError}

/-! ## One operand -/

/-- An operand that is put into a new variable. -/
theorem outcome_of_hoisted {base : String} (hinline : tree.isInline = false)
    (hloop : tree.kind ∉ Tree.loops)
    (hassign : tree.kind = .assignExpr → assignmentTarget? tree = none)
    (hneeds : tree.needsVariable = true)
    (hbase : newBase tree (index + 1) = base.toList ++ Text.ofNat (index + 1)) :
    tree.refusal? = none ∧ ∃ outcome, Outcome.Of tree (index + 1) outcome ∧
      (.ok (hoisted base (index + 1) tree names) : Except AssistError Step) =
        .ok (outcome.step names) ∧
      outcome.name = (newBase? tree (index + 1)).map names.free := by
  -- A literal would be inline.
  have hliteral : tree.kind ≠ .stringLiteral := by
    intro hkind
    rw [Tree.isInline, hkind] at hinline
    exact absurd hinline (by simp only [beq_self_eq_true, Bool.true_or, Bool.true_eq_false,
      not_false_eq_true])
  rcases Names.exists_first names (newBase tree (index + 1)) with ⟨number, _, hname, _, _⟩
  have hof := Outcome.Of.new hinline hloop hassign hname
  refine ⟨?_, _, hof, ?_, ?_⟩
  · rw [Tree.refusal?, if_neg hloop, if_neg hliteral]
  · rw [hoisted, Names.fresh, ← hbase]
    rfl
  · rw [newBase?, if_pos hneeds, Option.map_some]

/-- An operand is refused for what is wrong with it by itself, or has an outcome. A new name is the
    one that is free where the operand stands. -/
theorem operand_cases (index : Nat) (tree : Tree) (names : Names) :
    (∃ error, tree.refusal? = some error ∧ operand index tree names = .error error) ∨
      (tree.refusal? = none ∧ ∃ outcome, Outcome.Of tree (index + 1) outcome ∧
        operand index tree names = .ok (outcome.step names) ∧
        outcome.name = (newBase? tree (index + 1)).map names.free) := by
  have hclass := tree.isOfClass
  have hfine (hloop : tree.kind ∉ Tree.loops) (hliteral : tree.kind ≠ .stringLiteral) :
      tree.refusal? = none := by
    rw [Tree.refusal?, if_neg hloop, if_neg hliteral]
  rw [operand]
  rcases hcase : tree.exprClass with _ | _ | _ | _ | _ | _ | _ | _ | _ <;>
    rw [hcase] at hclass <;> dsimp only
  -- A literal is refused if its content cannot be said in a heredoc.
  case stringLiteral =>
    have hkind : tree.kind = .stringLiteral := hclass
    rw [Tree.refusal?, if_neg (by rw [hkind]; decide), if_pos hkind]
    rcases hcontent : Literal.heredocContent tree with error | content
    · exact .inl ⟨error, rfl, rfl⟩
    · refine .inr ⟨rfl, _, .literal hkind hcontent, rfl, ?_⟩
      rw [newBase?, Tree.needsVariable, hcase]
      rfl
  case simpleVariable =>
    have hkind : tree.kind = .variable := hclass
    refine .inr ⟨hfine (by rw [hkind]; decide) (by rw [hkind]; decide), _, .read (.inl hkind), rfl,
      ?_⟩
    rw [newBase?, Tree.needsVariable, hcase]
    rfl
  -- A variable and an access are read in place.
  case memberOrIndexAccess =>
    have haccess : tree.isAccess = true := hclass
    have hkind : tree.kind = .memberExpr ∨ tree.kind = .indexExpr := by
      rw [Tree.isAccess, Bool.and_eq_true, Bool.or_eq_true, beq_iff_eq, beq_iff_eq] at haccess
      exact haccess.1
    refine .inr ⟨hfine ?_ ?_, _, .read (.inr haccess), rfl, ?_⟩
    · rcases hkind with hkind | hkind <;> rw [hkind] <;> decide
    · rcases hkind with hkind | hkind <;> rw [hkind] <;> decide
    · rw [newBase?, Tree.needsVariable, hcase]
      rfl
  -- An assignment is hoisted as it stands; if its target cannot be read back, it gets a new
  -- variable instead.
  case assignment =>
    have hkind : tree.kind = .assignExpr := hclass
    rcases htarget : assignmentTarget? tree with _ | target
    · refine .inr (outcome_of_hoisted ?_ ?_ (fun _ => htarget) ?_ ?_)
      · rw [Tree.isInline, Tree.isAccess, hkind]
        rfl
      · rw [hkind]
        decide
      · rw [Tree.needsVariable, hcase, htarget]
        rfl
      · rw [newBase, if_neg (by rw [hkind]; decide)]
    · refine .inr ⟨hfine (by rw [hkind]; decide) (by rw [hkind]; decide), _, .own hkind htarget,
        rfl, ?_⟩
      rw [newBase?, Tree.needsVariable, hcase, htarget]
      rfl
  case call =>
    have hkind : tree.kind ∈ [Kind.callExpr, .newExpr] := hclass
    have hbase : newBase tree (index + 1) = "newVarFnCall".toList ++ Text.ofNat (index + 1) := by
      rw [newBase, if_pos hkind]
    have hneeds : tree.needsVariable = true := by rw [Tree.needsVariable, hcase]
    simp only [List.mem_cons, List.not_mem_nil, or_false] at hkind
    refine .inr (outcome_of_hoisted ?_ ?_ ?_ hneeds hbase)
    · rw [Tree.isInline, Tree.isAccess]
      rcases hkind with hkind | hkind <;> rw [hkind] <;> rfl
    · rcases hkind with hkind | hkind <;> rw [hkind] <;> decide
    · intro hassign
      rw [hassign] at hkind
      exact absurd hkind (by decide)
  case loop =>
    have hkind : tree.kind ∈ Tree.loops := hclass
    exact .inl ⟨_, by rw [Tree.refusal?, if_pos hkind], rfl⟩
  -- Every other expression is hoisted into a new variable.
  all_goals
    rcases hclass with ⟨hinline, hkind, hloop⟩
    rw [List.mem_cons, not_or] at hkind
    refine .inr (outcome_of_hoisted hinline hloop (fun h => absurd h hkind.1) ?_ ?_)
    · rw [Tree.needsVariable, hcase]
    · rw [newBase, if_neg hkind.2]

/-! ## A row of operands -/

/-- A row has no resolution just if something is wrong with one of its operands by itself, and the
    first of them is reported. -/
theorem ofFrom_eq_error_iff : ofFrom index operands names = .error error ↔
    operands.findSome? Tree.refusal? = some error := by
  induction operands generalizing index names with
  | nil => simp only [ofFrom, List.findSome?_nil, reduceCtorEq]
  | cons tree more ih =>
    rw [List.findSome?_cons, ofFrom]
    rcases operand_cases index tree names with ⟨cause, hrefused, heq⟩ | ⟨hfine, outcome, _, heq, _⟩
    · rw [hrefused, heq]
      simp only [bind, Except.bind, Except.error.injEq, Option.some.injEq]
    · have hmore := @ih (outcome.step names).names (index + 1)
      rw [hfine, heq, ← hmore]
      rcases hrest : ofFrom (index + 1) more (outcome.step names).names with cause | result
      · simp only [bind, Except.bind, hrest]
      · simp only [bind, Except.bind, pure, Except.pure, hrest, reduceCtorEq]

/-- The slots and hoists of a row are those of the outcomes of its operands, and the new names are
    what the row of names asked for gets. -/
theorem outcomes_of_ofFrom (h : ofFrom index operands names = .ok (resolution, after)) :
    ∃ outcomes : List Outcome,
      List.Forall₂ (fun placed outcome => Outcome.Of placed.1 placed.2 outcome)
        (operands.zipIdx (index + 1)) outcomes ∧
      resolution.slots = (outcomes.zipIdx index).map (fun placed => ⟨placed.2, placed.1.text⟩) ∧
      resolution.hoists = outcomes.filterMap Outcome.hoist ∧
      outcomes.filterMap Outcome.name = names.series
        ((operands.zipIdx (index + 1)).filterMap fun placed => newBase? placed.1 placed.2) := by
  induction operands generalizing index names resolution after with
  | nil =>
    rcases Prod.mk.inj (Except.ok.inj h) with ⟨rfl, rfl⟩
    exact ⟨[], .nil, rfl, rfl, rfl⟩
  | cons tree more ih =>
    rcases bind_eq_ok h with ⟨step, hstep, h⟩
    rcases bind_eq_ok h with ⟨⟨rest, last⟩, hrest, h⟩
    rcases Prod.mk.inj (Except.ok.inj h) with ⟨rfl, rfl⟩
    rcases operand_cases index tree names with ⟨_, _, heq⟩ | ⟨_, outcome, hof, heq, hname⟩
    · rw [heq] at hstep
      cases hstep
    rw [heq] at hstep
    rw [← Except.ok.inj hstep] at hrest ⊢
    -- The others are resolved with the names that are left.
    rcases ih hrest with ⟨outcomes, hall, hslots, hhoists, hnames⟩
    refine ⟨outcome :: outcomes, .cons hof hall, ?_, ?_, ?_⟩
    · dsimp only
      rw [hslots]
      rfl
    · dsimp only
      rw [hhoists, List.filterMap_cons, Outcome.step]
      cases outcome.hoist <;> rfl
    · -- The name that the first operand gets is in use for the others.
      rw [Outcome.step] at hnames
      rw [List.zipIdx_cons, List.filterMap_cons, List.filterMap_cons, hnames, hname]
      dsimp only
      cases newBase? tree (index + 1) <;> rfl

/-- Operands in a row have no resolution just if one of them is a loop, or a string literal that
    cannot stand in a heredoc, and then the first such operand is reported. Otherwise each operand
    has an outcome. The slots are the texts of the outcomes, numbered from zero; the hoists are
    their statements, one for each operand that is not read where it stands. The new names are those
    that the row of names asked for gets, of which no two are the same and none was in use. -/
theorem resolves_row (operands : List Tree) (names : Names) :
    (∀ error, of operands names = .error error ↔
      operands.findSome? Tree.refusal? = some error) ∧
    ((∃ error, of operands names = .error error) ↔ ∃ operand ∈ operands,
      operand.kind ∈ Tree.loops ∨
        (operand.kind = .stringLiteral ∧
          ∃ error, Literal.heredocContent operand = .error error)) ∧
    ∀ resolution, of operands names = .ok resolution → ∃ outcomes : List Outcome,
      List.Forall₂ (fun placed outcome => Outcome.Of placed.1 placed.2 outcome ∧
        outcome.hoist.isSome = !placed.1.isInline) (operands.zipIdx 1) outcomes ∧
      resolution.slots = outcomes.mapIdx (fun index outcome => ⟨index, outcome.text⟩) ∧
      resolution.hoists = outcomes.filterMap Outcome.hoist ∧
      outcomes.filterMap Outcome.name = names.series
        ((operands.zipIdx 1).filterMap fun placed => newBase? placed.1 placed.2) ∧
      (outcomes.filterMap Outcome.name).Nodup ∧
      ∀ name ∈ outcomes.filterMap Outcome.name, name ∉ names.taken := by
  have herror (error : AssistError) : of operands names = .error error ↔
      operands.findSome? Tree.refusal? = some error := by
    rw [← @ofFrom_eq_error_iff operands names 0 error, of]
    rcases ofFrom 0 operands names with cause | result
    · simp only [Except.map, Except.error.injEq]
    · simp only [Except.map, reduceCtorEq]
  -- The first operand that is refused decides, and one is refused if any is.
  refine ⟨herror, ?_, fun resolution h => ?_⟩
  · rw [exists_congr herror, ← Option.isSome_iff_exists, List.isSome_findSome?, List.any_eq_true]
    exact exists_congr fun operand => and_congr_right fun _ => operand.isSome_refusal?
  · rcases ofFrom_of_ok h with ⟨after, hfrom⟩
    rcases outcomes_of_ofFrom hfrom with ⟨outcomes, hall, hslots, hhoists, hnames⟩
    refine ⟨outcomes, hall.imp fun _ _ hof => ⟨hof, hof.isSome_hoist⟩, ?_, hhoists, hnames, ?_⟩
    · rw [hslots, List.mapIdx_eq_zipIdx_map]
    · rw [hnames]
      exact names.nodup_series _

/-- A name that is in use gets a number, and the literal and the access in front of the call hoist
    nothing. -/
theorem resolves_row_arguments :
    ∃ operands names resolution, of operands names = .ok resolution ∧
      operands.map Tree.trimmed = ["'a'".toList, "$b[0]".toList, "$c = g()".toList,
        "h($newVarFnCall4)".toList] ∧
      resolution.slots.map Slot.text = ["a".toList, "{$b[0]}".toList, "{$c}".toList,
        "{$newVarFnCall4_2}".toList] ∧
      ∃ outcomes : List Outcome,
        List.Forall₂ (fun placed outcome => Outcome.Of placed.1 placed.2 outcome ∧
          outcome.hoist.isSome = !placed.1.isInline) (operands.zipIdx 1) outcomes ∧
        resolution.slots = outcomes.mapIdx (fun index outcome => ⟨index, outcome.text⟩) ∧
        resolution.hoists = outcomes.filterMap Outcome.hoist ∧
        outcomes.filterMap Outcome.name = names.series
          ((operands.zipIdx 1).filterMap fun placed => newBase? placed.1 placed.2) ∧
        (outcomes.filterMap Outcome.name).Nodup ∧
        ∀ name ∈ outcomes.filterMap Outcome.name, name ∉ names.taken := by
  generalize hroot : (Parse.file "<?php f('a', $b[0], $c = g(), h($newVarFnCall4));".toList).root =
    root
  have hany : root.descendants.any (fun args => args.tree.childNodes.map Tree.trimmed ==
      ["'a'".toList, "$b[0]".toList, "$c = g()".toList, "h($newVarFnCall4)".toList] &&
        (of args.tree.childNodes (Names.of root)).toOption.any fun resolution =>
          resolution.slots.map Slot.text == ["a".toList, "{$b[0]}".toList, "{$c}".toList,
            "{$newVarFnCall4_2}".toList]) = true := by
    rw [← hroot]
    decide +kernel
  rcases List.any_eq_true.mp hany with ⟨args, _, htest⟩
  rw [Bool.and_eq_true, beq_iff_eq] at htest
  rcases eq_ok_of_any htest.2 with ⟨resolution, hresolution, hslots⟩
  exact ⟨_, _, resolution, hresolution, htest.1, beq_iff_eq.mp hslots,
    (resolves_row args.tree.childNodes (Names.of root)).2.2 resolution hresolution⟩

end Resolution

end PhpAssist

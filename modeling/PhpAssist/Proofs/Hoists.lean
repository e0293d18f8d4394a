import Mathlib.Data.List.Forall2
import PhpAssist.Proofs.Resolutions

/-!
# What operands hoist

Literals, variables and accesses stay in the heredoc; every other operand hoists one statement. An
assignment of a variable that can be read in a string is that statement by itself, and any other
operand is assigned to a new variable. The hoists of a row of operands are those of its operands, in
their order, and the names that get into use are those of the new variables.

## Main definitions

* `Tree.isHoisted`: An operand that hoists a statement.
* `Hoist.Of`: The statement that an operand hoists.

## Theorems

* `Resolution.hoists_of_ofFrom`: The hoists of a row of operands.
* `Resolution.taken_of_ofFrom`: The names that get into use.
-/

namespace PhpAssist

open Text

/-- Whether an operand hoists a statement. -/
def Tree.isHoisted (operand : Tree) : Bool :=
  operand.exprClass == .assignment || operand.needsVariable

namespace Hoist

/-- An assignment of a variable or an access that can be read in a string is its own statement. -/
inductive Own (operand : Tree) : Hoist → Prop
  | mk {target : Tree} (hclass : operand.exprClass = .assignment)
      (htarget : Resolution.assignmentTarget? operand = some target) :
      Own operand ⟨target.trimmed, operand.trimmed ++ [';']⟩

/-- Any other operand is assigned to a new variable. -/
inductive New (operand : Tree) : Hoist → Prop
  | mk {name : Text} (hneeds : operand.needsVariable = true) (hname : isName name = true) :
      New operand ⟨name, '$' :: name ++ " = ".toList ++ operand.trimmed ++ [';']⟩

/-- The statement that an operand hoists. -/
def Of (operand : Tree) (hoist : Hoist) : Prop := Own operand hoist ∨ New operand hoist

end Hoist

namespace Resolution

variable {operands : List Tree} {names after : Names} {resolution : Resolution} {tree : Tree}
  {index : Nat} {step : Step}

/-- What an operand hoists, and the names that are in use behind it. -/
theorem hoist_of_operand (h : operand index tree names = .ok step) :
    (tree.isHoisted = false ∧ step.hoist = none ∧ step.names = names) ∨
    (tree.isHoisted = true ∧ ∃ hoist, step.hoist = some hoist ∧
      ((Hoist.Own tree hoist ∧ step.names = names) ∨
        (Hoist.New tree hoist ∧ step.names = ⟨hoist.name :: names.taken⟩ ∧
          hoist.name ∉ names.taken))) := by
  rcases operand_eq_ok h with ⟨content, hclass, _, rfl⟩ | ⟨hclass, rfl⟩ |
    ⟨target, hclass, htarget, rfl⟩ | ⟨hneeds, base, hbase, rfl⟩
  · refine .inl ⟨?_, rfl, rfl⟩
    rw [Tree.isHoisted, Tree.needsVariable, hclass]
    rfl
  · refine .inl ⟨?_, rfl, rfl⟩
    rw [Tree.isHoisted, Tree.needsVariable]
    rcases hclass with hclass | hclass <;>
      rw [hclass] <;> rfl
  · refine .inr ⟨?_, _, rfl, .inl ⟨.mk hclass htarget, rfl⟩⟩
    rw [Tree.isHoisted, hclass]
    rfl
  · have hname := Names.isName_free names (isName_base hbase index)
    refine .inr ⟨?_, _, rfl, .inr ⟨.mk hneeds hname, rfl, Names.free_not_mem names _⟩⟩
    rw [Tree.isHoisted, hneeds, Bool.or_true]

/-- The operands of a row hoist one statement each, in their order, unless they stay where they
    are. -/
theorem hoists_of_ofFrom (h : ofFrom index operands names = .ok (resolution, after)) :
    List.Forall₂ Hoist.Of (operands.filter Tree.isHoisted) resolution.hoists := by
  induction operands generalizing index names resolution after with
  | nil =>
    rw [← (Prod.mk.inj (Except.ok.inj h)).1]
    exact .nil
  | cons tree more ih =>
    rcases bind_eq_ok h with ⟨step, hstep, h⟩
    rcases bind_eq_ok h with ⟨⟨rest, last⟩, hrest, h⟩
    rw [← (Prod.mk.inj (Except.ok.inj h)).1, List.filter_cons]
    rcases hoist_of_operand hstep with ⟨hstays, hnone, _⟩ | ⟨hhoisted, hoist, hsome, hof⟩
    · rw [hstays, if_neg Bool.false_ne_true, hnone]
      have hmore : List.Forall₂ Hoist.Of (more.filter Tree.isHoisted) rest.hoists := ih hrest
      exact hmore
    · rw [hhoisted, if_pos rfl, hsome]
      exact .cons (hof.imp And.left And.left) (ih hrest)

/-- The names that get into use are new, and every hoist that is no assignment of its own has one of
    them. -/
theorem taken_of_ofFrom (h : ofFrom index operands names = .ok (resolution, after)) :
    ∃ handed, after.taken = handed ++ names.taken ∧ (∀ name ∈ handed, name ∉ names.taken) ∧
      ∀ hoist ∈ resolution.hoists,
        (∃ operand ∈ operands, Hoist.Own operand hoist) ∨ hoist.name ∈ handed := by
  induction operands generalizing index names resolution after with
  | nil =>
    rcases Prod.mk.inj (Except.ok.inj h) with ⟨rfl, rfl⟩
    exact ⟨[], rfl, nofun, nofun⟩
  | cons tree more ih =>
    rcases bind_eq_ok h with ⟨step, hstep, h⟩
    rcases bind_eq_ok h with ⟨⟨rest, last⟩, hrest, h⟩
    rcases Prod.mk.inj (Except.ok.inj h) with ⟨rfl, rfl⟩
    rcases ih hrest with ⟨handed, htaken, hnew, hhoists⟩
    have hmore (hoist : Hoist) (hmem : hoist ∈ rest.hoists) :
        (∃ operand ∈ tree :: more, Hoist.Own operand hoist) ∨ hoist.name ∈ handed :=
      (hhoists hoist hmem).imp_left fun ⟨operand, hoperand, hown⟩ =>
        ⟨operand, List.mem_cons_of_mem _ hoperand, hown⟩
    -- Behind an operand that is assigned to a new variable, one more name is in use.
    rcases hoist_of_operand hstep with ⟨_, hnone, hnames⟩ |
      ⟨_, hoist, hsome, ⟨hown, hnames⟩ | ⟨_, hnames, hfree⟩⟩
    · rw [hnames] at htaken hnew
      rw [hnone]
      exact ⟨handed, htaken, hnew, hmore⟩
    · rw [hnames] at htaken hnew
      rw [hsome]
      refine ⟨handed, htaken, hnew, fun it hit => ?_⟩
      rcases List.mem_append.mp hit with hself | hit
      · rw [List.mem_singleton.mp hself]
        exact .inl ⟨tree, List.mem_cons_self, hown⟩
      · exact hmore it hit
    · rw [hnames] at htaken hnew
      rw [hsome]
      refine ⟨handed ++ [hoist.name], ?_, fun name hname => ?_, fun it hit => ?_⟩
      · rw [htaken, List.append_assoc]
        rfl
      · rcases List.mem_append.mp hname with hname | hname
        · exact fun hmem => hnew name hname (List.mem_cons_of_mem _ hmem)
        · rw [List.mem_singleton.mp hname]
          exact hfree
      · rcases List.mem_append.mp hit with hself | hit
        · rw [List.mem_singleton.mp hself]
          exact .inr (List.mem_append_right _ (List.mem_singleton_self _))
        · exact (hmore it hit).imp_right (List.mem_append_left _)

end Resolution

end PhpAssist

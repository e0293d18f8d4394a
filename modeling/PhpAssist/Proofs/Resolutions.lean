import PhpAssist.Proofs.ConcatPlan
import PhpAssist.Proofs.FreshNames

/-!
# How operands are resolved

An operand of a format becomes a text in one of four ways. What each of them does is said once here,
for one operand; operands in a row are resolved one after the other, and all that one hands to the
next are the names in use, of which there never are fewer.

## Main definitions

* `Tree.needsVariable`: An operand that is evaluated into a new variable.

## Theorems

* `Resolution.operand_eq_ok`: The four ways in which an operand is resolved.
* `Resolution.names_operand`: No name gets out of use.
* `Resolution.slot_of_operand`: Every operand of a row is resolved by itself.
* `Resolution.text_of_needsVariable`: An operand that needs a variable gets one that is new.
-/

namespace PhpAssist

/-- Whether an operand is evaluated into a new variable, because it cannot be read in a heredoc. -/
def Tree.needsVariable (operand : Tree) : Bool :=
  match operand.exprClass with
  | .call | .ternary | .concatenation | .genericExpression => true
  | .assignment => (Resolution.assignmentTarget? operand).isNone
  | _ => false

namespace Resolution

variable {operands : List Tree} {names after : Names} {resolution : Resolution} {tree : Tree}
  {index i : Nat} {step : Step}

/-- The four ways in which an operand is resolved. -/
theorem operand_eq_ok (h : operand index tree names = .ok step) :
    (∃ content, tree.exprClass = .stringLiteral ∧ Literal.heredocContent tree = .ok content ∧
      step = ⟨content, none, names⟩) ∨
    ((tree.exprClass = .simpleVariable ∨ tree.exprClass = .memberOrIndexAccess) ∧
      step = ⟨braced tree.trimmed, none, names⟩) ∨
    (∃ target, tree.exprClass = .assignment ∧ assignmentTarget? tree = some target ∧
      step = ⟨braced target.trimmed, some ⟨target.trimmed, tree.trimmed ++ [';']⟩, names⟩) ∨
    (tree.needsVariable = true ∧ ∃ base ∈ ["newVarPhpExpression", "newVarFnCall"],
      step = hoisted base (index + 1) tree names) := by
  have hnew {base : String} (hbase : base ∈ ["newVarPhpExpression", "newVarFnCall"])
      (hneeds : tree.needsVariable = true)
      (heq : (.ok (hoisted base (index + 1) tree names) : Except AssistError Step) = .ok step) :
      tree.needsVariable = true ∧ ∃ base ∈ ["newVarPhpExpression", "newVarFnCall"],
        step = hoisted base (index + 1) tree names :=
    ⟨hneeds, base, hbase, (Except.ok.inj heq).symm⟩
  -- One case a class; the last four evaluate the operand into a variable.
  rw [operand] at h
  split at h
  · rename_i hclass
    rcases bind_eq_ok h with ⟨content, hcontent, heq⟩
    exact .inl ⟨content, hclass, hcontent, (Except.ok.inj heq).symm⟩
  · rename_i hclass
    exact .inr (.inl ⟨.inl hclass, (Except.ok.inj h).symm⟩)
  · rename_i hclass
    exact .inr (.inl ⟨.inr hclass, (Except.ok.inj h).symm⟩)
  · rename_i hclass
    split at h
    · rename_i target htarget
      exact .inr (.inr (.inl ⟨target, hclass, htarget, (Except.ok.inj h).symm⟩))
    · rename_i hnone
      exact .inr (.inr (.inr (hnew (by decide) (by rw [Tree.needsVariable, hclass, hnone]; rfl) h)))
  · rename_i hclass
    exact .inr (.inr (.inr (hnew (by decide) (by rw [Tree.needsVariable, hclass]) h)))
  · rename_i hclass
    exact .inr (.inr (.inr (hnew (by decide) (by rw [Tree.needsVariable, hclass]) h)))
  · rename_i hclass
    exact .inr (.inr (.inr (hnew (by decide) (by rw [Tree.needsVariable, hclass]) h)))
  · rename_i hclass
    exact .inr (.inr (.inr (hnew (by decide) (by rw [Tree.needsVariable, hclass]) h)))
  · exact absurd h (by simp only [reduceCtorEq, not_false_eq_true])

/-- A row of operands that is resolved leaves names behind. -/
theorem ofFrom_of_ok (h : of operands names = .ok resolution) :
    ∃ after, ofFrom 0 operands names = .ok (resolution, after) := by
  rw [of] at h
  rcases hfrom : ofFrom 0 operands names with cause | ⟨found, after⟩
  · rw [hfrom] at h
    exact absurd h (by simp only [Except.map, reduceCtorEq, not_false_eq_true])
  · rw [hfrom] at h
    exact ⟨after, by rw [← Except.ok.inj h]⟩

theorem ofFrom_of_resolve (h : ConcatChain.resolve operands names = .ok resolution) :
    ∃ after, ofFrom 0 operands names = .ok (resolution, after) := by
  rw [ConcatChain.resolve] at h
  rcases hof : of operands names with cause | found
  · rw [hof] at h
    exact absurd h (by simp only [Except.mapError, reduceCtorEq, not_false_eq_true])
  · rw [hof] at h
    exact ofFrom_of_ok (hof.trans h)

/-- No name gets out of use. -/
theorem names_operand (h : operand index tree names = .ok step) :
    names.taken ⊆ step.names.taken := by
  rcases operand_eq_ok h with ⟨_, _, _, rfl⟩ | ⟨_, rfl⟩ | ⟨_, _, _, rfl⟩ | ⟨_, base, _, rfl⟩
  · exact List.Subset.refl _
  · exact List.Subset.refl _
  · exact List.Subset.refl _
  · exact List.subset_cons_self _ _

/-- Every operand of a row is resolved by itself, where no fewer names are in use than at the
    beginning. -/
theorem slot_of_operand (h : ofFrom index operands names = .ok (resolution, after))
    (htree : operands[i]? = some tree) :
    ∃ here step, names.taken ⊆ here.taken ∧ operand (index + i) tree here = .ok step ∧
      resolution.slots[i]? = some ⟨index + i, step.text⟩ := by
  induction operands generalizing index i names resolution after with
  | nil => exact absurd htree (by simp only [List.getElem?_nil, reduceCtorEq, not_false_eq_true])
  | cons first more ih =>
    rcases bind_eq_ok h with ⟨step, hstep, h⟩
    rcases bind_eq_ok h with ⟨⟨rest, last⟩, hrest, h⟩
    have heq := Except.ok.inj h
    rw [Prod.mk.injEq] at heq
    rw [← heq.1]
    -- The first operand has the names at hand, and what is behind it the names it leaves.
    rcases i with _ | i
    · rw [List.getElem?_cons_zero, Option.some.injEq] at htree
      subst htree
      exact ⟨names, step, List.Subset.refl _, hstep, rfl⟩
    · rw [List.getElem?_cons_succ] at htree
      rcases ih hrest htree with ⟨here, found, hhere, hfound, hslot⟩
      rw [Nat.add_right_comm, Nat.add_assoc] at hfound hslot
      exact ⟨here, found, List.Subset.trans (names_operand hstep) hhere, hfound, hslot⟩

/-- What new variables are made from is the name of a variable. -/
theorem isName_base {base : String} (hbase : base ∈ ["newVarPhpExpression", "newVarFnCall"])
    (index : Nat) : Text.isName (base.toList ++ Text.ofNat (index + 1)) = true := by
  have hbases : ∀ base ∈ ["newVarPhpExpression", "newVarFnCall"],
      Text.isName base.toList = true := by
    decide
  exact Text.isName_append (hbases base hbase) (Text.all_ofNat (index + 1))

/-- An operand that needs a variable gets one that is new. -/
theorem text_of_needsVariable (hneeds : tree.needsVariable = true)
    (h : operand index tree names = .ok step) :
    ∃ name, step.text = braced ('$' :: name) ∧ Text.isName name = true ∧ name ∉ names.taken := by
  unfold Tree.needsVariable at hneeds
  rcases operand_eq_ok h with ⟨_, hclass, _⟩ | ⟨hclass, _⟩ | ⟨target, hclass, htarget, _⟩ |
    ⟨_, base, hbase, rfl⟩
  · rw [hclass] at hneeds
    exact absurd hneeds Bool.false_ne_true
  · rcases hclass with hclass | hclass <;>
      rw [hclass] at hneeds <;> exact absurd hneeds Bool.false_ne_true
  · rw [hclass] at hneeds
    dsimp only at hneeds
    rw [htarget] at hneeds
    exact absurd hneeds Bool.false_ne_true
  · exact ⟨_, rfl, Names.isName_free names (isName_base hbase index), Names.free_not_mem names _⟩

end Resolution

end PhpAssist

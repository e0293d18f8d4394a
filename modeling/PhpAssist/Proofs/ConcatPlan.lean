import PhpAssist.Assist
import PhpAssist.Proofs.TernaryParts

/-!
# Carrying out the rewrite of a concatenation

The rewrite of a concatenation is a row of steps, and each may refuse. Where a change comes out,
every step went through, and what it found or made fits the steps before it. This is said once
here; what is proved about the change is proved from it.

## Main definitions

* `ConcatChain.Rewrite`: What a rewrite that went through found and made on its way.

## Theorems

* `ConcatChain.rewrite_of_change`: A change comes from a rewrite that went through.
* `ConcatChain.Rewrite.hoists_ne_nil`: Where a change inserts something, something was hoisted.
-/

namespace PhpAssist

theorem throw_ne_ok {ε α : Type} {cause : ε} {value : α} :
    (throw cause : Except ε α) ≠ .ok value := by
  simp only [throw, throwThe, MonadExceptOf.throw, ne_eq, reduceCtorEq, not_false_eq_true]

/-- Steps over a row go through when each of them does. -/
theorem forM_eq_ok {ε α : Type} {step : α → Except ε Unit} {row : List α}
    (h : row.forM step = .ok ()) : ∀ item ∈ row, step item = .ok () := by
  induction row with
  | nil => exact fun item hitem => absurd hitem List.not_mem_nil
  | cons first more ih =>
    rcases bind_eq_ok h with ⟨_, hfirst, hmore⟩
    intro item hitem
    rcases List.mem_cons.mp hitem with rfl | hitem
    · exact hfirst
    · exact ih hmore item hitem

/-- A result of which something can be computed is a value. -/
theorem eq_ok_of_any {ε α : Type} {result : Except ε α} {p : α → Bool}
    (h : result.toOption.any p = true) : ∃ value, result = .ok value ∧ p value = true := by
  cases result with
  | error cause => exact absurd h Bool.false_ne_true
  | ok value => exact ⟨value, rfl, h⟩

namespace ConcatChain

/-- A rewrite that went through: what it found and made on its way. -/
structure Rewrite (context : AssistContext) (change : Change) where
  concat : Node
  anchor : Node
  call : FormatCall
  format : Text
  resolution : Resolution
  content : Text
  heredoc : Text
  topmost : topmost? context = some concat
  applicable : context.config.converter.isApplicable concat.tree = true
  anchored : concat.anchor? = some anchor
  converted : context.config.converter.convert concat.tree = .ok call
  stripped : Literal.stripQuotes call.format = .ok format
  placeholders : Format.placeholders (Format.normalize format) = call.operands.length
  resolved : resolve call.operands (Names.of context.parse.root) = .ok resolution
  unconditional : resolution.hoists ≠ [] → conditional? concat anchor = none
  filled : (Template.of (Format.normalize format)).fill (resolution.slots.map Slot.text) =
    .ok content
  closed : Literal.heredoc content = .ok heredoc
  reads : ∃ parse, parseGenerated ("echo ".toList ++ heredoc ++ [';']) = .ok parse
  hoistsRead : ∀ hoist ∈ resolution.hoists, ∃ parse, parseGenerated hoist.text = .ok parse
  edits : Change.ofEdits
    (Edit.before context.parse.text anchor.span.start resolution.hoists ++
      [⟨concat.span, heredoc⟩]) = .ok change

variable {context : AssistContext} {change : Change}

/-- A change comes from a rewrite that went through. -/
theorem rewrite_of_change (h : ConcatChain.change context = .ok change) :
    Nonempty (Rewrite context change) := by
  -- Every refusal throws, so a change that is made went past all of them.
  unfold ConcatChain.change at h
  split at h
  case h_2 => exact absurd h throw_ne_ok
  rename_i concat htopmost
  dsimp only at h
  rcases happlicable : context.config.converter.isApplicable concat.tree with _ | _
  · rw [happlicable, Bool.not_false, if_pos rfl] at h
    rcases bind_eq_ok h with ⟨_, hthrow, _⟩
    exact absurd hthrow throw_ne_ok
  rw [happlicable, Bool.not_true, if_neg Bool.false_ne_true] at h
  split at h
  case h_2 => exact absurd h throw_ne_ok
  rename_i anchor hanchored
  rcases bind_eq_ok h with ⟨call, hconverted, h⟩
  rcases bind_eq_ok h with ⟨format, hstripped, h⟩
  by_cases hcount : Format.placeholders (Format.normalize format) ≠ call.operands.length
  · rw [if_pos hcount] at h
    rcases bind_eq_ok h with ⟨_, hthrow, _⟩
    exact absurd hthrow throw_ne_ok
  rw [if_neg hcount] at h
  rcases bind_eq_ok h with ⟨resolution, hresolved, h⟩
  -- The check of the place is made only if something is hoisted; both ways go on alike.
  have hrest : (resolution.hoists ≠ [] → conditional? concat anchor = none) ∧
      (do
        let content ← (Template.of (Format.normalize format)).fill (resolution.slots.map Slot.text)
        let heredoc ← Literal.heredoc content
        let _ ← parseGenerated ("echo ".toList ++ heredoc ++ [';'])
        resolution.hoists.forM fun hoist => do
          let _ ← parseGenerated hoist.text
        Change.ofEdits (Edit.before context.parse.text anchor.span.start resolution.hoists ++
          [⟨concat.span, heredoc⟩]) : Except AssistError Change) = .ok change := by
    split at h
    · split at h
      · rcases bind_eq_ok h with ⟨_, hthrow, _⟩
        exact absurd hthrow throw_ne_ok
      · rename_i hnone
        exact ⟨fun _ => Option.eq_none_iff_forall_ne_some.mpr hnone, h⟩
    · rename_i hempty
      rw [Bool.not_eq_true', Bool.not_eq_false, List.isEmpty_iff] at hempty
      exact ⟨fun hne => absurd hempty hne, h⟩
  rcases hrest with ⟨hunconditional, h⟩
  rcases bind_eq_ok h with ⟨content, hfilled, h⟩
  rcases bind_eq_ok h with ⟨heredoc, hclosed, h⟩
  rcases bind_eq_ok h with ⟨parse, hreads, h⟩
  rcases bind_eq_ok h with ⟨_, hhoists, hedits⟩
  refine ⟨⟨concat, anchor, call, format, resolution, content, heredoc, htopmost, happlicable,
    hanchored, hconverted, hstripped, Classical.not_not.mp hcount, hresolved, hunconditional,
    hfilled, hclosed, ⟨parse, hreads⟩, fun hoist hhoist => ?_, hedits⟩⟩
  rcases bind_eq_ok (forM_eq_ok hhoists hoist hhoist) with ⟨parse, hparse, _⟩
  exact ⟨parse, hparse⟩

/-- A change of one edit that replaces something hoists nothing, so a change that inserts something
    does. -/
theorem Rewrite.hoists_ne_nil (rewrite : Rewrite context change)
    (hspan : rewrite.concat.span.length ≠ 0) (h : ∃ edit ∈ change.edits, edit.isInsertion = true) :
    rewrite.resolution.hoists ≠ [] := by
  intro hnil
  have hedits := rewrite.edits
  rw [hnil] at hedits
  -- Nothing is put in front of the anchor, so the one edit is the replacement.
  have hchange : Change.ofEdits [⟨rewrite.concat.span, rewrite.heredoc⟩] = .ok change := hedits
  rw [show Change.ofEdits [⟨rewrite.concat.span, rewrite.heredoc⟩] = .ok ⟨[_]⟩ from rfl,
    Except.ok.injEq] at hchange
  rcases h with ⟨edit, hmem, hinsertion⟩
  rw [← hchange, List.mem_singleton] at hmem
  rw [hmem, Edit.isInsertion, beq_iff_eq] at hinsertion
  exact hspan hinsertion

end ConcatChain

/-- Nothing is around the root of a file without diagnostics. -/
theorem Parse.parents_root {text : Text} (hclean : (file text).diagnostics = []) :
    (file text).root.parents = [] := by
  rcases clean_file_of_diagnostics hclean with ⟨_, _, hclean'⟩
  rcases hclean'.root with ⟨trees, hroot, _⟩
  rw [hroot]
  rfl

namespace ConcatChain.Rewrite

variable {context : AssistContext} {change : Change} {text : Text}

/-- What was found is a concatenation around the cursor. -/
theorem concat_of_ancestors (rewrite : Rewrite context change) :
    rewrite.concat ∈ context.ancestors ∧ rewrite.concat.kind = .concatExpr := by
  have hmem : rewrite.concat ∈ context.ancestors.filter fun node => node.kind == .concatExpr :=
    List.mem_of_getLast? rewrite.topmost
  rw [List.mem_filter, beq_iff_eq] at hmem
  exact hmem

/-- The nodes from the concatenation outwards are in the tree. -/
theorem ancestors_subset (rewrite : Rewrite context change)
    (hclean : (Parse.file text).diagnostics = []) (hparse : context.parse = Parse.file text) :
    rewrite.concat.ancestors ⊆ context.parse.root.descendants := by
  have hroot : context.parse.root.parents = [] := by rw [hparse, Parse.parents_root hclean]
  exact Node.ancestors_subset hroot
    (AssistContext.ancestors_subset hroot rewrite.concat_of_ancestors.1)

end ConcatChain.Rewrite

end PhpAssist

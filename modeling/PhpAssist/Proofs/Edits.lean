import PhpAssist.Assist
import PhpAssist.Proofs.Bytes
import PhpAssist.Proofs.Reread

/-!
# Where edits put their texts

The place and the size of a node are those of its text without the trivia at its ends. An edit there
takes just this text out of the text around it, and an insertion in front of it takes out nothing.

## Theorems

* `Node.span_eq`: Where the text of a node begins and how long it is.
* `Change.ofEdits_insertion`: An insertion in front of what is replaced never overlaps it.
* `Change.apply_insertion`: What a replacement and an insertion in front of it make of a text.
-/

namespace PhpAssist

open Text

/-- The text of a row of tokens is what is between the trivia at its ends. -/
theorem Token.fullText_eq_trimmed {tokens : List Token} {first final : Token}
    (hfirst : tokens.head? = some first) (hfinal : tokens.getLast? = some final) :
    tokens.flatMap fullText = first.leadingText ++ (trimmed tokens ++ final.trailingText) := by
  rcases List.getLast?_eq_some_iff.mp hfinal with ⟨front, rfl⟩
  rcases front with _ | ⟨tok, front⟩
  · rw [List.nil_append, List.head?_cons, Option.some.injEq] at hfirst
    subst hfirst
    simp only [List.nil_append, trimmed, endWith, startWith, List.flatMap_singleton, fullText,
      leadingText, trailingText, List.flatMap_nil, List.append_nil, List.append_assoc]
  · rw [List.cons_append, List.head?_cons, Option.some.injEq] at hfirst
    subst hfirst
    rw [trimmed, endWith_append_singleton]
    simp only [List.cons_append, startWith, List.flatMap_cons, List.flatMap_append, fullText,
      leadingText, trailingText, List.flatMap_nil, List.nil_append, List.append_nil,
      List.append_assoc]

namespace Node

variable {node : Node} {first : Token}

theorem leadingSize_eq {tree : Tree} (hfirst : tree.tokens.head? = some first)
    (hkind : first.kind.isTrivia = false) : tree.leadingSize = size first.leadingText := by
  rcases List.head?_eq_some_iff.mp hfirst with ⟨more, htokens⟩
  have htrivia : ∀ piece ∈ first.leading.map Trivia.piece, piece.kind.isTrivia = true := by
    intro piece hpiece
    rcases List.mem_map.mp hpiece with ⟨trivia, _, rfl⟩
    exact Tree.isTrivia_trivia trivia
  rw [Tree.leadingSize, Tree.pieces, htokens, List.flatMap_cons, Token.pieces, List.append_assoc,
    List.cons_append, List.takeWhile_append_of_pos htrivia, List.takeWhile_cons_of_neg (by
      rw [hkind]
      exact Bool.false_ne_true), List.append_nil, Tree.text_pieces]
  rfl

/-- The text of a node begins behind the trivia in front of it. -/
theorem span_eq (hfirst : node.tree.tokens.head? = some first)
    (hkind : first.kind.isTrivia = false) :
    node.span = ⟨node.place.bytes + size first.leadingText, size node.trimmed⟩ := by
  have hpiece : (⟨first.kind, first.text⟩ : Piece) ∈ node.tree.pieces := by
    refine List.mem_flatMap.mpr ⟨first, List.mem_of_head? hfirst, ?_⟩
    rw [Token.pieces, List.mem_append]
    exact .inr List.mem_cons_self
  rw [span, if_neg, leadingSize_eq hfirst hkind]
  intro hall
  have htrivia := List.all_eq_true.mp hall _ hpiece
  rw [hkind] at htrivia
  exact absurd htrivia Bool.false_ne_true

end Node

namespace Change

theorem ofEdits_singleton (edit : Edit) : Change.ofEdits [edit] = .ok ⟨[edit]⟩ := rfl

/-- Text put in front of what is replaced never overlaps it. -/
theorem ofEdits_insertion {start : Nat} (insert : Text) {replacement : Edit}
    (h : start ≤ replacement.span.start) :
    Change.ofEdits [⟨.empty start, insert⟩, replacement] =
      .ok ⟨[⟨.empty start, insert⟩, replacement]⟩ := by
  have hprecedes : Edit.precedes ⟨.empty start, insert⟩ replacement = true := by
    rw [Edit.precedes, Edit.isInsertion, Bool.or_eq_true]
    rcases Nat.lt_or_eq_of_le h with hlt | heq
    · exact .inl (decide_eq_true hlt)
    · refine .inr ?_
      simp only [Span.empty, heq, beq_self_eq_true, Bool.true_or, Bool.and_true]
  have hsorted : StableSort.sort Edit.precedes [⟨.empty start, insert⟩, replacement] =
      [⟨.empty start, insert⟩, replacement] := by
    simp only [StableSort.sort, StableSort.insert, hprecedes, if_true]
  have hdisjoint : Edit.disjoint [⟨.empty start, insert⟩, replacement] = true := by
    simp only [Edit.disjoint, Span.empty, Span.stop, Nat.add_zero, h, decide_true, Bool.and_true]
  rw [Change.ofEdits, hsorted, if_pos hdisjoint]

/-- A replacement leaves what is in front of it and behind it. -/
theorem apply_singleton (before old after insert : Text) :
    Change.apply ⟨[⟨⟨size before, size old⟩, insert⟩]⟩ (before ++ (old ++ after)) =
      before ++ (insert ++ after) := by
  simp only [Change.apply, applyFrom, Nat.sub_zero, takeBytes_size, dropBytes_size,
    List.append_assoc]

/-- A replacement and an insertion in front of it leave what is between them. -/
theorem apply_insertion (before between old after insert replacement : Text) :
    Change.apply ⟨[⟨.empty (size before), insert⟩,
        ⟨⟨size (before ++ between), size old⟩, replacement⟩]⟩
        (before ++ (between ++ (old ++ after))) =
      before ++ (insert ++ (between ++ (replacement ++ after))) := by
  have hdrop (text : Text) : dropBytes 0 text = text := dropBytes_size [] text
  have hkept : size (before ++ between) - (size before + 0) = size between := by
    rw [size_append]
    exact Nat.add_sub_cancel_left _ _
  simp only [Change.apply, applyFrom, Nat.sub_zero, Span.empty, Span.stop, hkept, takeBytes_size,
    dropBytes_size, hdrop, List.append_assoc]

/-- Statements put in front of a statement never overlap a replacement in it. -/
theorem ofEdits_before (source : Text) {start : Nat} (hoists : List Hoist) {replacement : Edit}
    (h : start ≤ replacement.span.start) :
    Change.ofEdits (Edit.before source start hoists ++ [replacement]) =
      .ok ⟨Edit.before source start hoists ++ [replacement]⟩ := by
  rcases hoists with _ | ⟨hoist, hoists⟩
  · exact ofEdits_singleton replacement
  · exact ofEdits_insertion _ h

/-- What a replacement and statements put in front of it make of a text. -/
theorem apply_before (source : Text) (hoists : List Hoist)
    (before between old after replacement : Text) :
    Change.apply ⟨Edit.before source (size before) hoists ++
        [⟨⟨size (before ++ between), size old⟩, replacement⟩]⟩
        (before ++ (between ++ (old ++ after))) =
      before ++ (hoists.flatMap (fun (hoist : Hoist) =>
          hoist.text ++ Edit.separator source (size before)) ++
        (between ++ (replacement ++ after))) := by
  rcases hoists with _ | ⟨hoist, hoists⟩
  · rw [List.flatMap_nil, List.nil_append, ← List.append_assoc, ← List.append_assoc before between]
    exact apply_singleton (before ++ between) old after replacement
  · exact apply_insertion before between old after _ replacement

end Change

end PhpAssist

import PhpAssist.Assist.Concat
import PhpAssist.Proofs.FormatCalls
import PhpAssist.Proofs.Leaves

/-!
# What a heredoc holds

A chain whose literals are single quoted strings and nowdocs always gets through its format, and
what comes out is what one would write down at once: each literal, by what it says, with its
backslashes and dollar signs escaped, and each other operand by its text. The format escapes quotes
and doubles percent signs on the way in, and both are undone on the way out; nothing that is joined
is changed, because neither an escaped literal nor something in braces can be gone on with.

## Main definitions

* `ConcatChain.Woven`: What the operands of a chain and the texts of those that are no literals come
  to in a heredoc.

## Theorems

* `Converter.draft_eq`: The format of a chain.
* `Converter.convert_eq`: The format call of a chain.
* `ConcatChain.heredoc_content`: What the heredoc of a chain holds.
-/

namespace PhpAssist

open Text

/-- What is under a node of a file without diagnostics can be taken out of it, if it is an
    expression. -/
theorem Parse.excerpt_of_subtree {text : Text} {node : Node} {sub : Tree}
    (h : (file text).diagnostics = []) (hnode : node ∈ (file text).root.descendants)
    (hsub : sub ∈ node.tree.subtrees) (hstandalone : Grammar.Standalone sub.shape) :
    sub.Excerpt := by
  rw [← Node.tree_descendants, List.mem_map] at hsub
  rcases hsub with ⟨below, hbelow, rfl⟩
  refine excerpt_of_standalone h ?_ hstandalone
  exact Node.mem_descendants.mpr
    (Node.subtree_subset (Node.mem_descendants.mp hnode) (Node.mem_descendants.mp hbelow))

namespace ConcatChain

/-- What the operands of a chain come to in a heredoc, where the operands that are no literals have
    given texts: a literal is what it says, escaped. -/
inductive Woven : List Tree → List Text → Text → Prop
  | nil : Woven [] [] []
  | literal {leaf : Tree} {leaves : List Tree} {slots : List Text} {said content : Text}
      (hkind : leaf.kind = .stringLiteral) (hsaid : Literal.said leaf = .ok said)
      (h : Woven leaves slots content) :
      Woven (leaf :: leaves) slots (Escape.encodeHeredoc said ++ content)
  | operand {leaf : Tree} {leaves : List Tree} {slot : Text} {slots : List Text} {content : Text}
      (hkind : leaf.kind ≠ .stringLiteral) (h : Woven leaves slots content) :
      Woven (leaf :: leaves) (slot :: slots) (slot ++ content)

end ConcatChain

/-- The operands of a chain that are no literals. -/
def Converter.passed (leaves : List Tree) : List Tree :=
  leaves.filter fun leaf => leaf.kind != .stringLiteral

/-- What an operand of a chain is to a format. -/
def Tree.part (leaf : Tree) : Format.Part :=
  if leaf.kind = .stringLiteral then .literal ((Literal.said leaf).toOption.getD []) else .operand

section Format

open Format Format.Part

variable {leaves : List Tree}

theorem Tree.part_of_said {leaf : Tree} {text : Text} (hkind : leaf.kind = .stringLiteral)
    (h : Literal.said leaf = .ok text) : leaf.part = .literal text := by
  rw [part, if_pos hkind, h]
  rfl

/-- Every operand of a chain whose literals say something has a part in the format. -/
theorem ConcatChain.woven_of_parts
    (hsaid : ∀ leaf ∈ leaves, leaf.kind = .stringLiteral → ∃ text, Literal.said leaf = .ok text)
    {slots : List Text} (hlength : slots.length = (Converter.passed leaves).length) :
    ∃ content, Format.Part.Woven (leaves.map Tree.part) slots content ∧
      ConcatChain.Woven leaves slots content := by
  -- Each operand that is no literal takes the next slot.
  induction leaves generalizing slots with
  | nil =>
    rw [List.length_eq_zero_iff.mp hlength]
    exact ⟨[], .nil, .nil⟩
  | cons leaf leaves ih =>
    have hmore := fun it hit => hsaid it (List.mem_cons_of_mem leaf hit)
    rw [Converter.passed, List.filter_cons] at hlength
    by_cases hkind : leaf.kind = .stringLiteral
    · rcases hsaid leaf List.mem_cons_self hkind with ⟨text, htext⟩
      rw [if_neg (by rw [hkind]; decide)] at hlength
      rcases ih hmore hlength with ⟨content, hparts, hwoven⟩
      rw [List.map_cons, Tree.part_of_said hkind htext]
      exact ⟨_, .literal hparts, .literal hkind htext hwoven⟩
    · rw [if_pos (bne_iff_ne.mpr hkind)] at hlength
      rcases slots with _ | ⟨slot, slots⟩
      · exact absurd hlength.symm (Nat.succ_ne_zero _)
      rcases ih hmore (Nat.succ.inj hlength) with ⟨content, hparts, hwoven⟩
      rw [List.map_cons, Tree.part, if_neg hkind]
      exact ⟨_, .operand hparts, .operand hkind hwoven⟩

namespace Converter

/-- A chain whose literals say something is put together as a format of its parts. -/
theorem draft_eq
    (hsaid : ∀ leaf ∈ leaves, leaf.kind = .stringLiteral → ∃ text, Literal.said leaf = .ok text)
    {draft : Draft} (hdraft : Join.Settled draft.format) :
    leaves.foldlM Draft.add draft =
      .ok ⟨draft.format ++ (leaves.map Tree.part).flatMap double,
        draft.operands ++ operandsText (passed leaves)⟩ := by
  induction leaves generalizing draft with
  | nil =>
    rw [List.map_nil, List.flatMap_nil, List.append_nil]
    show Except.ok draft = .ok ⟨draft.format, draft.operands ++ []⟩
    rw [List.append_nil]
  | cons leaf leaves ih =>
    have hmore := fun it hit => hsaid it (List.mem_cons_of_mem leaf hit)
    rw [List.foldlM_cons, Draft.add, List.map_cons, List.flatMap_cons, passed, List.filter_cons]
    by_cases hkind : leaf.kind = .stringLiteral
    · rcases hsaid leaf List.mem_cons_self hkind with ⟨text, htext⟩
      -- The literal is put behind the format as it is written.
      have hpush := Join.push_of_settled hdraft (head_literal text).1
      have hsettled := hdraft.append (settled_literal text).1
      rw [if_pos hkind, if_neg (by rw [hkind]; decide), Literal.doubleContent_of_said htext,
        Tree.part_of_said hkind htext, double]
      dsimp only [bind, Except.bind, pure, Except.pure]
      rw [hpush]
      have hrest := @ih hmore ⟨draft.format ++ escapePercent (Escape.encodeDouble text),
        draft.operands⟩ hsettled
      rw [hrest, List.append_assoc]
      rfl
    · have hspecifier : Join.Settled ['%', 's'] :=
        (Join.Settled.singleton (by decide) (by decide)).append
          (Join.Settled.singleton (by decide) (by decide))
      rw [if_neg hkind, if_pos (bne_iff_ne.mpr hkind), Tree.part, if_neg hkind, double]
      have hrest := @ih hmore ⟨draft.format ++ ['%', 's'],
        draft.operands ++ [',', ' '] ++ leaf.trimmed⟩ (hdraft.append hspecifier)
      have hoperands : draft.operands ++ operandsText (leaf :: passed leaves) =
          draft.operands ++ [',', ' '] ++ leaf.trimmed ++ operandsText (passed leaves) := by
        simp only [operandsText, List.flatMap_cons, List.append_assoc]
      show leaves.foldlM Draft.add _ = .ok ⟨draft.format ++ (['%', 's'] ++ _), _⟩
      rw [hrest, ← List.append_assoc]
      exact congrArg (fun operands => Except.ok (Draft.mk _ operands)) hoperands.symm

/-- A draft is put around as a format in quotes. -/
theorem render_eq (inner : Text) (operands : List Tree) :
    Draft.render ⟨inner, operandsText operands⟩ =
      callText ('"' :: (inner ++ ['"'])) operands := by
  have hopening : "sprintf(\"".toList = "sprintf(".toList ++ ['"'] := by decide
  delta Draft.render callText
  rw [hopening]
  simp only [List.append_assoc, List.cons_append, List.nil_append]

/-- The format call of a chain has the format of its parts and the operands that are no literals,
    read again. -/
theorem convert_eq {concat : Tree} (hsaid : ∀ leaf ∈ concat.operands, leaf.kind = .stringLiteral →
      ∃ text, Literal.said leaf = .ok text)
    (hexcerpt : ∀ leaf ∈ passed concat.operands, leaf.Excerpt)
    (hstandalone : ∀ leaf ∈ passed concat.operands, Grammar.Standalone leaf.shape) :
    ∃ call agains, sprintf.convert concat = .ok ⟨call,
        '"' :: ((concat.operands.map Tree.part).flatMap double ++ ['"']), agains⟩ ∧
      List.Forall₂ Tree.Reread (passed concat.operands) agains := by
  -- The format ends at its own quote, whatever operands come behind it.
  have hclose (after : Text) : Quoted.close [.quote '"']
      ((concat.operands.map Tree.part).flatMap double ++ ['"'] ++ after) =
        ⟨(concat.operands.map Tree.part).flatMap double ++ ['"'], after, true⟩ := by
    rw [List.append_assoc]
    exact close_parts (concat.operands.map Tree.part) after
  rcases FormatCall.parse_callText hclose hexcerpt hstandalone with ⟨call, agains, hparse, hagains⟩
  refine ⟨call, agains, ?_, hagains⟩
  show (do let draft ← concat.operands.foldlM Draft.add ⟨[], []⟩
           FormatCall.parse draft.render) = _
  rw [draft_eq hsaid .nil]
  dsimp only [bind, Except.bind, List.nil_append]
  rw [render_eq, hparse]

end Converter

/-- A text in double quotes, without its quotes. -/
theorem Literal.stripQuotes_double (inner : Text) :
    stripQuotes ('"' :: (inner ++ ['"'])) = .ok (Escape.heredocOfDouble inner) := by
  rcases htext : inner ++ ['"'] with _ | ⟨second, rest⟩
  · exact absurd htext (List.append_ne_nil_of_right_ne_nil _ (List.cons_ne_nil _ _))
  rw [stripQuotes, ← htext, List.getLast?_concat, List.dropLast_concat, if_pos rfl, if_pos rfl]

/-- The format of parts, without its quotes. -/
theorem Literal.stripQuotes_parts (parts : List Part) :
    stripQuotes ('"' :: (parts.flatMap double ++ ['"'])) = .ok (parts.flatMap format) := by
  rw [stripQuotes_double, strip_parts]

end Format

namespace ConcatChain

variable {text : Text} {node : Node}

/-- Operands that are no literals are resolved, each to something in braces, and just as well where
    they are read again. -/
theorem resolve_passed {leaves agains : List Tree}
    (hagains : List.Forall₂ Tree.Reread leaves agains) (hexcerpt : ∀ leaf ∈ leaves, leaf.Excerpt)
    (hstandalone : ∀ leaf ∈ leaves, Grammar.Standalone leaf.shape)
    (hkind : ∀ leaf ∈ leaves, leaf.kind ≠ .stringLiteral) (names : Names) :
    ∃ resolution, resolve agains names = .ok resolution ∧ resolve leaves names = .ok resolution ∧
      resolution.slots.length = leaves.length ∧
      ∀ slot ∈ resolution.slots, ∃ text, slot.text = Resolution.braced text := by
  rcases Resolution.ofFrom_ok (fun leaf hleaf => ⟨hstandalone leaf hleaf, hkind leaf hleaf⟩) 0 names
    with ⟨resolution, after, hleaves, hlength, hslots⟩
  -- What is read back resolves to the same row.
  have hreread := Resolution.ofFrom_reread hagains
    (fun leaf hleaf => ⟨hexcerpt leaf hleaf, hstandalone leaf hleaf, hkind leaf hleaf⟩) 0 names
  have hresolve {operands : List Tree}
      (h : Resolution.ofFrom 0 operands names = .ok (resolution, after)) :
      resolve operands names = .ok resolution := by
    rw [resolve, Resolution.of, h]
    rfl
  exact ⟨resolution, hresolve (hreread.trans hleaves), hresolve hleaves, hlength, hslots⟩

/-- The operands of a concatenation of a file without diagnostics are expressions, and its literals
    that are single quoted strings or nowdocs say something. -/
theorem leaf_of_clean (hclean : (Parse.file text).diagnostics = [])
    (hnode : node ∈ (Parse.file text).root.descendants) (hkind : node.kind = .concatExpr)
    {leaf : Tree} (hleaf : leaf ∈ node.tree.operands) :
    leaf.Excerpt ∧ Grammar.Standalone leaf.shape ∧
      (leaf.kind = .stringLiteral → (∀ tok ∈ leaf.tokens,
        tok.kind = .singleQuotedString ∨ tok.kind = .nowdocString) →
          ∃ said, Literal.said leaf = .ok said) := by
  have hwhole := Parse.standalone_of_expr hclean hnode (by rw [hkind]; rfl)
  rcases Tree.operands_standalone node.tree hwhole leaf hleaf with ⟨hstandalone, hsub⟩
  have hexcerpt := Parse.excerpt_of_subtree hclean hnode hsub hstandalone
  refine ⟨hexcerpt, hstandalone, fun hliteral hquoting => ?_⟩
  -- A literal is one token, and it was scanned somewhere in the text.
  rcases Tree.literal_of_shape hstandalone hliteral with ⟨tok, rfl⟩
  have htok : tok ∈ (Tree.node .stringLiteral [.token tok]).tokens := List.mem_singleton_self tok
  rcases hexcerpt.lexes with ⟨_, _, hlexes⟩
  rcases hlexes.scan_of_mem htok with ⟨after, hscan⟩
  exact Literal.said_of_scan hscan (hquoting tok htok)

/-- A concatenation whose literals are single quoted strings and nowdocs gets through its format:
    the heredoc holds what each literal says, escaped, and the slot of each other operand, and the
    slots are what the operands come to where they stand. -/
theorem heredoc_content (hclean : (Parse.file text).diagnostics = [])
    (hnode : node ∈ (Parse.file text).root.descendants) (hkind : node.kind = .concatExpr)
    (hquoting : ∀ leaf ∈ node.tree.operands, leaf.kind = .stringLiteral →
      ∀ tok ∈ leaf.tokens, tok.kind = .singleQuotedString ∨ tok.kind = .nowdocString)
    (names : Names) :
    ∃ call format resolution content, Converter.sprintf.convert node.tree = .ok call ∧
      Literal.stripQuotes call.format = .ok format ∧
      Format.placeholders (Format.normalize format) = call.operands.length ∧
      resolve call.operands names = .ok resolution ∧
      resolve (Converter.passed node.tree.operands) names = .ok resolution ∧
      (Template.of (Format.normalize format)).fill (resolution.slots.map Slot.text) =
        .ok content ∧
      Woven node.tree.operands (resolution.slots.map Slot.text) content := by
  have hleaf {leaf : Tree} (h : leaf ∈ node.tree.operands) := leaf_of_clean hclean hnode hkind h
  have hpassed {leaf : Tree} (h : leaf ∈ Converter.passed node.tree.operands) :
      leaf ∈ node.tree.operands ∧ leaf.kind ≠ .stringLiteral := by
    rcases List.mem_filter.mp h with ⟨hmem, hne⟩
    exact ⟨hmem, bne_iff_ne.mp hne⟩
  have hsaid : ∀ leaf ∈ node.tree.operands, leaf.kind = .stringLiteral →
      ∃ text, Literal.said leaf = .ok text :=
    fun leaf h hliteral => (hleaf h).2.2 hliteral (hquoting leaf h hliteral)
  have hexcerpt : ∀ leaf ∈ Converter.passed node.tree.operands, leaf.Excerpt :=
    fun _ h => (hleaf (hpassed h).1).1
  have hstandalone : ∀ leaf ∈ Converter.passed node.tree.operands,
      Grammar.Standalone leaf.shape := fun _ h => (hleaf (hpassed h).1).2.1
  -- The operands of the call are those of the chain, read again, so they have the same slots.
  rcases Converter.convert_eq hsaid hexcerpt hstandalone with ⟨call, agains, hconvert, hagains⟩
  rcases resolve_passed hagains hexcerpt hstandalone (fun _ h => (hpassed h).2) names with
    ⟨resolution, hresolve, hdirect, hlength, hslots⟩
  rcases woven_of_parts hsaid ((List.length_map _).trans hlength) with ⟨content, hparts, hwoven⟩
  -- Nothing in braces can be gone on with, nor begins with a dollar sign.
  have hvalues : ∀ value ∈ resolution.slots.map Slot.text,
      Join.Settled value ∧ value.head? ≠ some '$' := by
    intro value hvalue
    rcases List.mem_map.mp hvalue with ⟨slot, hslot, rfl⟩
    rcases hslots slot hslot with ⟨inner, hinner⟩
    rw [hinner]
    exact ⟨.braced inner, fun h => absurd (Option.some.inj h) (by decide)⟩
  refine ⟨_, _, resolution, content, hconvert, Literal.stripQuotes_parts _, ?_, hresolve, hdirect,
    ?_, hwoven⟩
  · rw [Format.normalize_parts, Format.placeholders_parts hparts, List.length_map, hlength]
    exact hagains.length_eq
  · rw [Format.normalize_parts, Format.fill_parts hvalues hparts]

/-- Percent signs, a dollar sign, a quote and backslashes in front of operands. -/
theorem heredoc_content_percent :
    (Parse.file "<?php '%$\\\\\"' . $a . <<<'X'\n%s\\\nX .f();".toList).diagnostics = [] ∧
      ∃ node ∈ (Parse.file "<?php '%$\\\\\"' . $a . <<<'X'\n%s\\\nX .f();".toList).root.descendants,
        node.kind = .concatExpr ∧
        (∀ leaf ∈ node.tree.operands, leaf.kind = .stringLiteral →
          ∀ tok ∈ leaf.tokens, tok.kind = .singleQuotedString ∨ tok.kind = .nowdocString) ∧
        ∃ call format resolution content, Converter.sprintf.convert node.tree = .ok call ∧
          Literal.stripQuotes call.format = .ok format ∧
          Format.placeholders (Format.normalize format) = call.operands.length ∧
          resolve call.operands ⟨[]⟩ = .ok resolution ∧
          resolve (Converter.passed node.tree.operands) ⟨[]⟩ = .ok resolution ∧
          (Template.of (Format.normalize format)).fill (resolution.slots.map Slot.text) =
            .ok content ∧
          Woven node.tree.operands (resolution.slots.map Slot.text) content := by
  obtain ⟨hclean, hleaves⟩ :
      (Parse.file "<?php '%$\\\\\"' . $a . <<<'X'\n%s\\\nX .f();".toList).diagnostics = [] ∧
      ((Parse.file "<?php '%$\\\\\"' . $a . <<<'X'\n%s\\\nX .f();".toList).root.descendants[2]?).any
        (fun (node : Node) => node.kind == .concatExpr && node.tree.operands.all fun leaf =>
        leaf.kind != .stringLiteral || leaf.tokens.all fun tok =>
          tok.kind == .singleQuotedString || tok.kind == .nowdocString) = true := by
    decide +kernel
  rcases (Option.any_eq_true _ _).mp hleaves with ⟨node, hget, hnode⟩
  rw [Bool.and_eq_true, beq_iff_eq, List.all_eq_true] at hnode
  have hquoting : ∀ leaf ∈ node.tree.operands, leaf.kind = .stringLiteral →
      ∀ tok ∈ leaf.tokens, tok.kind = .singleQuotedString ∨ tok.kind = .nowdocString := by
    intro leaf hleaf hkind tok htok
    have hall := hnode.2 leaf hleaf
    rw [hkind, Bool.or_eq_true, bne_self_eq_false, List.all_eq_true] at hall
    have hor := hall.resolve_left Bool.false_ne_true tok htok
    rw [Bool.or_eq_true, beq_iff_eq, beq_iff_eq] at hor
    exact hor
  have hmem := List.mem_of_getElem? hget
  exact ⟨hclean, node, hmem, hnode.1, hquoting,
    heredoc_content hclean hmem hnode.1 hquoting ⟨[]⟩⟩

end ConcatChain

end PhpAssist

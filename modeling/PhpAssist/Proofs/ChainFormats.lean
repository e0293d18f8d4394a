import PhpAssist.Proofs.FormatOperands
import PhpAssist.Proofs.HeredocQuotes
import PhpAssist.Proofs.Placeholders

/-!
# Every chain has a format

The usual converter writes a chain as a call and reads the call back. That works for every chain
whose literals can be written in double quotes one behind the other. Literals in quotes and nowdocs
always can, whatever they say, and so can a heredoc unless it has a double quote in code, or braces
or a backslash that are not closed at its end. The call then has the operands of the chain and a
format with a placeholder for each.

Where a heredoc has a double quote in code, the quote is escaped like those around it. In code a
backslash escapes nothing, the quote opens a string that never ends, and the call is refused.

## Theorems

* `Literal.exists_doubleContent`: Every literal can be written in double quotes.
* `Converter.counts_of_draft`: The placeholders of a format.
* `Converter.represents_chain`: The format call of a chain.
* `Converter.quoted_key_refused`: A chain without one.
-/

namespace PhpAssist

open Quoted (Inside Embeds)

namespace Literal

/-- Every literal can be written in double quotes, and leaves the string open that it is put into,
    unless it is a heredoc whose body cannot. -/
theorem exists_doubleContent {tok : Token} {after : Text}
    (hscan : Lexer.scan (tok.text ++ after) = (tok.kind, ⟨tok.text, after, true⟩))
    (hstring : tok.kind.isString = true)
    (hheredoc : tok.kind = .heredocString → ∀ body, docBody tok.text = .ok body → Embeds body) :
    ∃ content, doubleContent (.node .stringLiteral [.token tok]) = .ok content ∧
      Inside content := by
  have hsaid (hkind : tok.kind = .singleQuotedString ∨ tok.kind = .nowdocString) :
      ∃ content, doubleContent (.node .stringLiteral [.token tok]) = .ok content ∧
        Inside content := by
    rcases said_of_scan hscan hkind with ⟨text, htext⟩
    exact ⟨_, doubleContent_of_said htext, .encodeDouble text⟩
  -- One case a kind of literals.
  rcases Lexer.string_of_scan hscan hstring with ⟨hsingle, _⟩ | ⟨hdouble, hhead, hcut⟩ |
    ⟨isNowdoc, hdoc, hfound⟩
  · exact hsaid (.inl hsingle)
  · rcases exists_inside_of_scan hhead hcut.symm with ⟨inner, hinside, hinner⟩
    refine ⟨inner, ?_, hinside⟩
    rw [doubleContent, parts_token hstring (by rw [hdouble]; rfl)]
    exact hinner
  · cases isNowdoc with
    | true => exact hsaid (.inr (hdoc.trans (if_pos rfl)))
    | false =>
      have hkind : tok.kind = .heredocString := hdoc.trans (if_neg Bool.false_ne_true)
      rcases docBody_of_scan hfound with ⟨body, hbody⟩
      refine ⟨Escape.doubleOfHeredoc body, ?_, .doubleOfHeredoc (hheredoc hkind body hbody)⟩
      rw [doubleContent, parts_token hstring (by rw [hkind]; rfl)]
      show (do return Escape.doubleOfHeredoc (← docBody tok.text) : Except AssistError Text) = _
      rw [hbody]
      rfl

end Literal

namespace Converter

variable {leaves : List Tree} {draft result : Draft} {n : Nat}

/-- A chain whose literals can be written in double quotes is put together. -/
theorem exists_draft (hliteral : ∀ leaf ∈ leaves, leaf.kind = .stringLiteral →
      ∃ content, Literal.doubleContent leaf = .ok content) (draft : Draft) :
    ∃ result, leaves.foldlM Draft.add draft = .ok result := by
  induction leaves generalizing draft with
  | nil => exact ⟨draft, rfl⟩
  | cons leaf leaves ih =>
    -- Only a literal can be refused, and none is.
    have hnext : ∃ next, draft.add leaf = .ok next := by
      rw [Draft.add]
      split
      · rename_i hkind
        rcases hliteral leaf List.mem_cons_self hkind with ⟨content, hcontent⟩
        rw [hcontent]
        exact ⟨_, rfl⟩
      · exact ⟨_, rfl⟩
    rcases hnext with ⟨next, hnext⟩
    rcases ih (fun it hit => hliteral it (List.mem_cons_of_mem _ hit)) next with ⟨result, hresult⟩
    refine ⟨result, ?_⟩
    rw [List.foldlM_cons, hnext]
    exact hresult

/-- The format of a chain has a placeholder for each operand that is no literal, and its other
    percent signs are doubled. -/
theorem counts_of_draft (h : leaves.foldlM Draft.add draft = .ok result)
    (hdraft : Format.Counts draft.format n) :
    Format.Counts result.format (n + (passed leaves).length) := by
  induction leaves generalizing draft n with
  | nil =>
    rw [← Except.ok.inj h]
    exact hdraft
  | cons leaf leaves ih =>
    rw [List.foldlM_cons] at h
    rcases bind_eq_ok h with ⟨next, hnext, hrest⟩
    rw [Draft.add] at hnext
    rw [passed, List.filter_cons]
    -- A literal adds text without placeholders, any other leaf adds one.
    by_cases hkind : leaf.kind = .stringLiteral
    · rw [if_pos hkind] at hnext
      rcases bind_eq_ok hnext with ⟨content, _, heq⟩
      rw [← Except.ok.inj heq] at hrest
      rw [if_neg (by rw [hkind]; decide)]
      exact ih hrest (hdraft.push (.escapePercent content))
    · rw [if_neg hkind] at hnext
      rw [← Except.ok.inj hnext] at hrest
      rw [if_pos (bne_iff_ne.mpr hkind), List.length_cons, Nat.add_comm _ 1, ← Nat.add_assoc]
      exact ih hrest (hdraft.append (.placeholder .nil))

/-- The usual converter represents every chain whose heredocs have no double quotes in code and
    leave nothing open. The operands of the call are those of the chain that are no literals, and
    the format has a placeholder for each of them. -/
theorem represents_chain {text : Text} {node : Node} (hclean : (Parse.file text).diagnostics = [])
    (hnode : node ∈ (Parse.file text).root.descendants) (hkind : node.kind = .concatExpr)
    (hheredoc : ∀ leaf ∈ node.tree.operands, leaf.kind = .stringLiteral → ∀ tok ∈ leaf.tokens,
      tok.kind = .heredocString → ∀ body, Literal.docBody tok.text = .ok body → Embeds body) :
    ∃ call format, sprintf.convert node.tree = .ok call ∧
      call.operands.map Tree.trimmed = (passed node.tree.operands).map Tree.trimmed ∧
      Literal.stripQuotes call.format = .ok format ∧
      Format.placeholders (Format.normalize format) = call.operands.length := by
  have hleaf {leaf : Tree} (h : leaf ∈ node.tree.operands) :=
    ConcatChain.leaf_of_clean hclean hnode hkind h
  have hpassed {leaf : Tree} (h : leaf ∈ passed node.tree.operands) : leaf ∈ node.tree.operands :=
    (List.mem_filter.mp h).1
  have hcontent : ∀ leaf ∈ node.tree.operands, leaf.kind = .stringLiteral →
      ∃ content, Literal.doubleContent leaf = .ok content ∧ Inside content := by
    intro leaf h hliteral
    rcases Tree.string_of_shape (hleaf h).2.1 hliteral with ⟨tok, rfl, hstring⟩
    have htok : tok ∈ (Tree.node .stringLiteral [.token tok]).tokens := List.mem_singleton_self tok
    rcases (hleaf h).1.lexes with ⟨_, _, hlexes⟩
    rcases hlexes.scan_of_mem htok with ⟨after, hscan⟩
    exact Literal.exists_doubleContent hscan hstring (hheredoc _ h rfl tok htok)
  -- The format ends at its own quote, so what is read back is what was written.
  rcases exists_draft (fun leaf h hliteral => (hcontent leaf h hliteral).imp fun _ => And.left)
    ⟨[], []⟩ with ⟨⟨inner, operands⟩, hdraft⟩
  have hinside := inside_of_draft hdraft (fun leaf h hliteral content heq => by
    rcases hcontent leaf h hliteral with ⟨found, hfound, hinside⟩
    rw [← Except.ok.inj (hfound.symm.trans heq)]
    exact hinside) .nil
  have hoperands : operands = operandsText (passed node.tree.operands) := hinside.2
  have hexcerpt : ∀ leaf ∈ passed node.tree.operands, leaf.Excerpt := fun _ h =>
    (hleaf (hpassed h)).1
  rcases FormatCall.parse_callText hinside.1.close hexcerpt
    (fun _ h => (hleaf (hpassed h)).2.1) with ⟨call, agains, hparse, hagains⟩
  have hconvert : sprintf.convert node.tree = .ok ⟨call, '"' :: (inner ++ ['"']), agains⟩ := by
    show (do let draft ← node.tree.operands.foldlM Draft.add ⟨[], []⟩
             FormatCall.parse draft.render) = _
    rw [hdraft, hoperands]
    dsimp only [bind, Except.bind]
    rw [render_eq, hparse]
  have hcounts := (counts_of_draft hdraft .nil).heredocOfDouble.placeholders_normalize
  refine ⟨_, _, hconvert, ?_, Literal.stripQuotes_double inner, ?_⟩
  · exact Tree.Reread.map_trimmed hagains fun leaf h => (hexcerpt leaf h).kinds
  · rw [hcounts, Nat.zero_add]
    exact hagains.length_eq

/-- Code with quotes in a double quoted string, and a heredoc with a quote, a percent sign and a key
    in single quotes, in front of two operands. -/
theorem represents_chain_keys :
    (Parse.file "<?php \"%\x7b$k[\"i\"]\x7d\" . <<<E\n \x7b$a['k']\x7d\"%s\n E . $b . f(1);".toList
        ).diagnostics = [] ∧
      ∃ node ∈ (Parse.file "<?php \"%\x7b$k[\"i\"]\x7d\" . <<<E\n \x7b$a['k']\x7d\"%s\n E . $b . f(1);".toList
          ).root.descendants,
        node.kind = .concatExpr ∧
        (∀ leaf ∈ node.tree.operands, leaf.kind = .stringLiteral → ∀ tok ∈ leaf.tokens,
          tok.kind = .heredocString → ∀ body, Literal.docBody tok.text = .ok body → Embeds body) ∧
        ∃ call format, sprintf.convert node.tree = .ok call ∧
          call.operands.map Tree.trimmed = ["$b".toList, "f(1)".toList] ∧
          Literal.stripQuotes call.format = .ok format ∧
          Format.placeholders (Format.normalize format) = call.operands.length := by
  generalize htext :
    "<?php \"%\x7b$k[\"i\"]\x7d\" . <<<E\n \x7b$a['k']\x7d\"%s\n E . $b . f(1);".toList = text
  obtain ⟨hclean, hleaves⟩ :
      (Parse.file text).diagnostics = [] ∧
      ((Parse.file text).root.descendants[2]?).any (fun (node : Node) =>
        node.kind == .concatExpr &&
        (passed node.tree.operands).map Tree.trimmed == ["$b".toList, "f(1)".toList] &&
        node.tree.operands.all fun leaf => leaf.tokens.all fun tok =>
          tok.kind != .heredocString ||
            (Literal.docBody tok.text).toOption.all fun body => decide (Embeds body)) = true := by
    rw [← htext]
    decide +kernel
  rcases (Option.any_eq_true _ _).mp hleaves with ⟨node, hget, hnode⟩
  rw [Bool.and_eq_true, Bool.and_eq_true, beq_iff_eq, beq_iff_eq, List.all_eq_true] at hnode
  rcases hnode with ⟨⟨hkind, hpassed⟩, hall⟩
  have hheredoc : ∀ leaf ∈ node.tree.operands, leaf.kind = .stringLiteral → ∀ tok ∈ leaf.tokens,
      tok.kind = .heredocString → ∀ body, Literal.docBody tok.text = .ok body → Embeds body := by
    intro leaf hleaf _ tok htok hheredoc body hbody
    have hembeds := List.all_eq_true.mp (hall leaf hleaf) tok htok
    rw [hheredoc, bne_self_eq_false, Bool.false_or, hbody] at hembeds
    exact of_decide_eq_true hembeds
  have hmem := List.mem_of_getElem? hget
  rcases represents_chain hclean hmem hkind hheredoc with
    ⟨call, format, hconvert, hoperands, hstrip, hcount⟩
  exact ⟨hclean, node, hmem, hkind, hheredoc, call, format, hconvert, hoperands.trans hpassed,
    hstrip, hcount⟩

/-- A key in double quotes in the code of a heredoc: the chain has an operand that is no literal, and
    no format call. -/
theorem quoted_key_refused :
    (Parse.file "<?php $x = <<<E\n\x7b$a[\"k\"]\x7d\nE . $b;".toList).diagnostics = [] ∧
      ∃ node ∈ (Parse.file "<?php $x = <<<E\n\x7b$a[\"k\"]\x7d\nE . $b;".toList).root.descendants,
        node.kind = .concatExpr ∧
        (passed node.tree.operands).map Tree.trimmed = ["$b".toList] ∧
        ∃ cause, sprintf.convert node.tree = .error cause := by
  generalize htext : "<?php $x = <<<E\n\x7b$a[\"k\"]\x7d\nE . $b;".toList = text
  obtain ⟨hclean, hrefused⟩ :
      (Parse.file text).diagnostics = [] ∧
      ((Parse.file text).root.descendants[4]?).any (fun (node : Node) =>
        node.kind == .concatExpr &&
        (passed node.tree.operands).map Tree.trimmed == ["$b".toList] &&
        !(sprintf.convert node.tree).isOk) = true := by
    rw [← htext]
    decide +kernel
  rcases (Option.any_eq_true _ _).mp hrefused with ⟨node, hget, hnode⟩
  rw [Bool.and_eq_true, Bool.and_eq_true, beq_iff_eq, beq_iff_eq] at hnode
  rcases hnode with ⟨⟨hkind, hpassed⟩, hnot⟩
  refine ⟨hclean, node, List.mem_of_getElem? hget, hkind, hpassed, ?_⟩
  rcases hconvert : sprintf.convert node.tree with cause | call
  · exact ⟨cause, rfl⟩
  · rw [hconvert] at hnot
    exact absurd hnot Bool.false_ne_true

end Converter

end PhpAssist

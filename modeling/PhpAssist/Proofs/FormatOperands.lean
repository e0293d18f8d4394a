import PhpAssist.Proofs.HeredocContent
import PhpAssist.Proofs.OpenQuotes

/-!
# What is passed to a format

The content of a literal in quotes leaves the string open that it is put into, and so does what is
joined to it. The format of a chain without heredocs therefore ends at its own quote, and the
operands behind it are those of the chain. In a heredoc a quote in code between braces needs no
escape; in the format it is escaped nevertheless, and such a format may end somewhere else.

## Theorems

* `Literal.exists_inside_of_scan`: What stands between double quotes.
* `Literal.inside_of_scan`: What a literal that is no heredoc leaves open.
* `Converter.passes_operands`: The operands of the format call of a chain.
-/

namespace PhpAssist

namespace Literal

open Quoted (Inside)

/-- A literal that can be written in double quotes has a token of a kind of strings. -/
theorem isString_of_doubleContent {tok : Token} {content : Text}
    (h : doubleContent (.node .stringLiteral [.token tok]) = .ok content) :
    tok.kind.isString = true := by
  rcases hstring : tok.kind.isString with _ | _
  · have hnone : (Tree.node .stringLiteral [.token tok]).childToken? Kind.isString = none := by
      simp only [Tree.childToken?, Tree.childTokens, Tree.children, List.filterMap_cons,
        Tree.token?, List.filterMap_nil, List.find?_cons, hstring, List.find?_nil]
    rw [doubleContent, parts, hnone] at h
    rcases bind_eq_ok h with ⟨_, hthrow, _⟩
    exact absurd hthrow throw_ne_ok
  · rfl

/-- A double quoted string has between its quotes what leaves it open. -/
theorem exists_inside_of_scan {text after : Text} (hhead : (text ++ after).head? = some '"')
    (hscan : Quoted.scan (text ++ after) = ⟨text, after, true⟩) :
    ∃ inner, Inside inner ∧ quotedInner '"' text = .ok inner := by
  rcases text with _ | ⟨mark, body⟩
  · -- A string takes its first quote at least.
    rw [List.nil_append] at hhead hscan
    rcases after with _ | ⟨mark, after⟩
    · exact absurd hhead nofun
    · exact absurd (congrArg Cut.taken hscan) (List.cons_ne_nil _ _)
  · rw [List.cons_append, List.head?_cons, Option.some.injEq] at hhead
    rw [List.cons_append, hhead, Quoted.scan] at hscan
    rcases Cut.exists_of_cons_eq hscan with ⟨taken, htaken, hclose⟩
    rw [List.cons.injEq] at htaken
    rw [← htaken.2] at hclose
    rcases Inside.of_close hclose with ⟨inner, hbody, hinside⟩
    exact ⟨inner, hinside, by rw [hhead, hbody, quotedInner_append hinside.unescaped]⟩

/-- A literal that is no heredoc leaves the string open that it is put into. -/
theorem inside_of_scan {tok : Token} {after content : Text}
    (hscan : Lexer.scan (tok.text ++ after) = (tok.kind, ⟨tok.text, after, true⟩))
    (hheredoc : tok.kind ≠ .heredocString)
    (h : doubleContent (.node .stringLiteral [.token tok]) = .ok content) : Inside content := by
  have hstring := isString_of_doubleContent h
  have hparts {quoting : Quoting} (hquoting : Quoting.ofKind? tok.kind = some quoting) :=
    parts_token hstring hquoting
  rw [doubleContent] at h
  rcases Lexer.string_of_scan hscan hstring with ⟨hsingle, _⟩ | ⟨hdouble, hhead, hcut⟩ |
    ⟨isNowdoc, hdoc, _⟩
  · rw [hparts (by rw [hsingle]; rfl)] at h
    have hsaid : (do return Escape.encodeDouble (Escape.decodeSingle (← quotedInner '\'' tok.text)) :
      Except AssistError Text) = .ok content := h
    rcases bind_eq_ok hsaid with ⟨inner, _, heq⟩
    rw [← Except.ok.inj heq]
    exact .encodeDouble _
  · rw [hparts (by rw [hdouble]; rfl)] at h
    -- The token is what is between two quotes, the last of which ends it.
    rcases exists_inside_of_scan hhead hcut.symm with ⟨inner, hinside, hinner⟩
    have hquoted : quotedInner '"' tok.text = .ok content := h
    rw [← Except.ok.inj (hinner.symm.trans hquoted)]
    exact hinside
  · cases isNowdoc with
    | true =>
      rw [if_pos rfl] at hdoc
      rw [hparts (by rw [hdoc]; rfl)] at h
      have hsaid : (do return Escape.encodeDouble (← docBody tok.text) :
        Except AssistError Text) = .ok content := h
      rcases bind_eq_ok hsaid with ⟨body, _, heq⟩
      rw [← Except.ok.inj heq]
      exact .encodeDouble _
    | false => exact absurd hdoc hheredoc

end Literal

namespace Converter

open Quoted (Inside)

variable {leaves : List Tree} {draft result : Draft}

/-- A chain of literals that leave their strings open is put together as such a format, and as the
    operands that are no literals. -/
theorem inside_of_draft (h : leaves.foldlM Draft.add draft = .ok result)
    (hliteral : ∀ leaf ∈ leaves, leaf.kind = .stringLiteral →
      ∀ content, Literal.doubleContent leaf = .ok content → Inside content)
    (hdraft : Inside draft.format) :
    Inside result.format ∧ result.operands = draft.operands ++ operandsText (passed leaves) := by
  induction leaves generalizing draft with
  | nil =>
    rw [← Except.ok.inj h]
    exact ⟨hdraft, (List.append_nil _).symm⟩
  | cons leaf leaves ih =>
    have hmore := fun it hit => hliteral it (List.mem_cons_of_mem leaf hit)
    rw [List.foldlM_cons] at h
    rcases bind_eq_ok h with ⟨next, hnext, hrest⟩
    rw [Draft.add] at hnext
    rw [passed, List.filter_cons]
    by_cases hkind : leaf.kind = .stringLiteral
    · rw [if_pos hkind] at hnext
      rcases bind_eq_ok hnext with ⟨content, hcontent, heq⟩
      have hinside := hliteral leaf List.mem_cons_self hkind content hcontent
      have hformat := hdraft.push hinside.escapePercent
      rw [← Except.ok.inj heq] at hrest
      have hresult := ih hrest hmore hformat
      rw [if_neg (by rw [hkind]; decide)]
      exact hresult
    · rw [if_neg hkind] at hnext
      have hformat : Inside (draft.format ++ ['%', 's']) := hdraft.append (by simp)
      rw [← Except.ok.inj hnext] at hrest
      rw [if_pos (bne_iff_ne.mpr hkind)]
      rcases ih hrest hmore hformat with ⟨hresult, hoperands⟩
      refine ⟨hresult, ?_⟩
      rw [hoperands]
      simp only [operandsText, passed, List.flatMap_cons, List.append_assoc]

/-- The operands of the format call of a chain are those of the chain that are no literals, read
    again, where every literal leaves the string open that it is put into. -/
theorem passes_operands {concat : Tree} {call : FormatCall} (h : sprintf.convert concat = .ok call)
    (hliteral : ∀ leaf ∈ concat.operands, leaf.kind = .stringLiteral →
      ∀ content, Literal.doubleContent leaf = .ok content → Inside content)
    (hexcerpt : ∀ leaf ∈ passed concat.operands, leaf.Excerpt)
    (hstandalone : ∀ leaf ∈ passed concat.operands, Grammar.Standalone leaf.shape) :
    List.Forall₂ Tree.Reread (passed concat.operands) call.operands := by
  have hconvert : (do let draft ← concat.operands.foldlM Draft.add ⟨[], []⟩
                      FormatCall.parse draft.render) = .ok call := h
  rcases bind_eq_ok hconvert with ⟨⟨format, operands⟩, hdraft, hparse⟩
  rcases inside_of_draft hdraft hliteral .nil with ⟨hinside, hoperands⟩
  have hoperands : operands = operandsText (passed concat.operands) := hoperands
  rcases FormatCall.parse_callText hinside.close hexcerpt hstandalone with
    ⟨found, agains, hfound, hagains⟩
  rw [hoperands, render_eq, hfound] at hparse
  rw [← Except.ok.inj hparse]
  exact hagains

end Converter

end PhpAssist

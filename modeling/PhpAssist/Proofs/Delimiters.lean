import PhpAssist.Proofs.Bytes
import PhpAssist.Proofs.HeredocSeams

/-!
# Contents that a heredoc can have

A heredoc is made from a content only if no line of the content would close it. That check looks at
the lines of the content by themselves, without their ends; the reader of tokens looks at the lines
of the whole text, with their ends and with whatever comes behind the label. The two are written
separately, so it takes a proof that neither refuses what the other takes: a content that passes
gives one token that ends with the heredoc, and one that does not would end the token inside.

## Main definitions

* `Literal.wrapped`: A content between the opening line and the label.

## Theorems

* `Lexing.le_start_of_mem_errors`: What is reported stands where reading began or behind it.
* `Lexing.of_token`: The first token of a text without trivia in front.
* `Heredoc.exists_closes`: A line that closes a heredoc ends it before what follows.
* `Literal.heredoc_delimits`: The check refuses exactly the contents that end the token too early.
-/

namespace PhpAssist

open Text

/-! ## The first token -/

/-- A token without trivia in front that begins a text ends behind its own text. -/
theorem Token.stop_spanAt_zero (kind : Kind) (text : Text) (trailing : List Trivia) :
    (Token.spanAt ⟨[], kind, text, trailing⟩ 0).stop = Text.size text := by
  rw [spanAt, leadingText, List.flatMap_nil, size_nil, Span.stop, Nat.add_zero, Nat.zero_add]

namespace Lexing

/-- An error about trivia is about its last piece, which begins where the trivia does or behind
    that. -/
theorem le_start_of_mem_triviaErrors {run : Trivia.Run} {offset : Nat} {diagnostic : Diagnostic}
    (h : diagnostic ∈ triviaErrors run (offset + run.size)) : offset ≤ diagnostic.span.start := by
  rw [triviaErrors] at h
  split at h
  · exact absurd h List.not_mem_nil
  rw [List.mem_singleton.mp h]
  dsimp only
  -- The error stands at the last piece, and those ahead of it have a size.
  rcases List.eq_nil_or_concat run.pieces with hnil | ⟨front, last, hlast⟩
  · rw [hnil]
    exact Nat.le_add_right _ _
  · have hsize : run.size = size (front.flatMap Trivia.text) + size last.text := by
      rw [Trivia.Run.size, hlast, List.concat_eq_append, List.flatMap_append,
        List.flatMap_singleton, size_append]
    rw [hsize, hlast, List.concat_eq_append, List.getLast?_concat, Option.map_some,
      Option.getD_some]
    omega

/-- What is reported stands where reading began or behind it. -/
theorem le_start_of_mem_errors {offset : Nat} {text : Text} {diagnostic : Diagnostic}
    (h : diagnostic ∈ (readFrom offset text).errors) : offset ≤ diagnostic.span.start := by
  fun_induction readFrom offset text with
  | case1 offset text leading start leadingErrors _ => exact le_start_of_mem_triviaErrors h
  | case2 offset text leading start leadingErrors hrest lexeme size trailing stop errors more ih =>
    have hstart : offset ≤ start := Nat.le_add_right _ _
    -- In front of the token, about it, behind it, and from there on.
    rw [List.mem_append, List.mem_append, List.mem_append] at h
    rcases h with ((h | h) | h) | h
    · exact le_start_of_mem_triviaErrors h
    · rw [show errors = if lexeme.2.closed then [] else _ from rfl] at h
      split at h
      · exact absurd h List.not_mem_nil
      · rw [List.mem_singleton.mp h]
        exact hstart
    · have htrailing : start + size ≤ diagnostic.span.start := le_start_of_mem_triviaErrors h
      omega
    · have hmore := ih h
      omega

/-- The first token of a text that begins with no trivia, and where anything else that is reported
    stands. -/
theorem of_token {text after : Text} {kind : Kind} (hne : text ≠ [])
    (hnone : Trivia.scan? true (text ++ after) = none)
    (hscan : Lexer.scan (text ++ after) = (kind, ⟨text, after, true⟩)) :
    (∃ trailing more, (Lexing.of (text ++ after)).tokens = ⟨[], kind, text, trailing⟩ :: more) ∧
      ∀ diagnostic ∈ (Lexing.of (text ++ after)).errors, size text ≤ diagnostic.span.start := by
  have hne' : text ++ after ≠ [] := List.append_ne_nil_of_left_ne_nil hne _
  rw [Lexing.of, readFrom]
  dsimp only
  rw [(Trivia.Takes.nil hnone).scanAll]
  dsimp only
  rw [dif_neg hne', hscan]
  dsimp only
  refine ⟨⟨_, _, rfl⟩, fun diagnostic h => ?_⟩
  -- Reading goes on where the token ends, and up to there nothing is reported.
  have hstart : 0 + Trivia.Run.size ⟨[], text ++ after, true⟩ + size text = size text := by
    rw [Trivia.Run.size, List.flatMap_nil, size_nil, Nat.zero_add]
  rw [if_pos rfl, List.append_nil, hstart, List.mem_append, List.mem_append] at h
  rcases h with (h | h) | h
  · exact absurd h List.not_mem_nil
  · exact le_start_of_mem_triviaErrors h
  · exact Nat.le_trans (Nat.le_add_right _ _) (le_start_of_mem_errors h)

end Lexing

/-! ## A line that closes -/

namespace Heredoc

/-- A line that closes a heredoc ends it in front of the end of the line. -/
theorem exists_closes_line {name line : Text} (hname : IsLabel name)
    (h : closing? name line ≠ none) (rest : Text) :
    ∃ taken more, line ++ '\n' :: rest = taken ++ more ∧ more ≠ [] ∧ Closes name taken more := by
  rcases Option.ne_none_iff_exists'.mp h with ⟨cut, hcut⟩
  rcases (closing?_eq_some_iff hname).mp hcut with ⟨blanks, tail, rfl, hblanks, htail, _⟩
  refine ⟨blanks ++ name, tail ++ '\n' :: rest, ?_, ?_, .here hblanks ?_⟩
  · simp only [List.append_assoc]
  · exact List.append_ne_nil_of_right_ne_nil _ (List.cons_ne_nil _ _)
  · rcases tail with _ | ⟨c, tail⟩
    · rfl
    · exact htail

/-- A content with a line that closes a heredoc ends it in front of what follows the content. -/
theorem exists_closes {name content line : Text} (hname : IsLabel name)
    (hline : line ∈ lines content) (h : closing? name line ≠ none) (rest : Text) :
    ∃ taken more, content ++ '\n' :: rest = taken ++ more ∧ more ≠ [] ∧
      Closes name taken more := by
  -- The first line that closes is the one, so lines in front of it are passed over.
  induction hsize : content.length using Nat.strong_induction_on generalizing content with
  | h size ih =>
    by_cases hmem : '\n' ∈ content
    · rcases List.eq_append_cons_of_mem hmem with ⟨first, next, rfl, hfirst⟩
      rw [lines_line hfirst, List.mem_cons] at hline
      rw [List.append_assoc, List.cons_append]
      by_cases hopen : closing? name first = none
      · have hnext : line ∈ lines next := by
          refine hline.resolve_left fun heq => h ?_
          rw [heq, hopen]
        have hless : next.length < size := by
          rw [← hsize, List.length_append, List.length_cons]
          omega
        rcases ih _ hless hnext rfl with ⟨taken, more, htext, hmore, hcloses⟩
        refine ⟨first ++ '\n' :: taken, more, ?_, hmore,
          .line hfirst (closing?_line hname hopen) hcloses⟩
        rw [htext, List.append_assoc, List.cons_append]
      · exact exists_closes_line hname hopen _
    · rw [lines_of_not_mem hmem, List.mem_singleton] at hline
      exact exists_closes_line hname (hline ▸ h) _

end Heredoc

/-! ## The check -/

namespace Literal

open Heredoc

/-- A content between the opening line of a heredoc and its label. -/
def wrapped (content : Text) : Text := openingLine ++ (content ++ '\n' :: heredocDelimiter)

variable {content heredoc : Text}

/-- A heredoc is made when no line of its content closes one. -/
theorem heredoc_eq_ok_iff : Literal.heredoc content = .ok heredoc ↔
    heredoc = wrapped content ∧ ∀ line ∈ lines content, closing? heredocDelimiter line = none := by
  have hwrapped : wrapped content =
      ['<', '<', '<'] ++ heredocDelimiter ++ '\n' :: content ++ '\n' :: heredocDelimiter := by
    simp only [wrapped, openingLine, List.append_assoc, List.cons_append, List.nil_append]
  constructor
  · intro h
    rw [hwrapped]
    exact heredoc_eq h
  -- No line closes, so the content is accepted.
  · rintro ⟨rfl, hlines⟩
    have hnone : ¬ (lines content).any closesHeredoc = true := by
      rw [List.any_eq_true]
      rintro ⟨line, hline, hcloses⟩
      rw [closesHeredoc_eq, hlines line hline] at hcloses
      exact Bool.false_ne_true hcloses
    rw [Literal.heredoc, if_neg hnone, hwrapped]

/-- The first token of what was made is all of it, and nothing is reported about it. -/
theorem of_heredoc (h : Literal.heredoc content = .ok heredoc) {after : Text}
    (hafter : after.head?.any isIdentContinue = false) :
    (∃ trailing more,
      (Lexing.of (heredoc ++ after)).tokens = ⟨[], .heredocString, heredoc, trailing⟩ :: more) ∧
    ∀ diagnostic ∈ (Lexing.of (heredoc ++ after)).errors,
      size heredoc ≤ diagnostic.span.start := by
  have hscan := scan_heredoc h hafter
  rcases exists_of_heredoc h with ⟨more, rfl⟩
  exact Lexing.of_token (List.cons_ne_nil _ _) rfl hscan

/-- Where nothing is made, the first token of what would have been made ends too early. -/
theorem of_wrapped {error : AssistError} (h : Literal.heredoc content = .error error) :
    ∃ tok more, (Lexing.of (wrapped content)).tokens = tok :: more ∧
      (tok.spanAt 0).stop < size (wrapped content) := by
  -- Nothing is made because of a line that closes, and that line ends the token.
  have hline : ∃ line ∈ lines content, closing? heredocDelimiter line ≠ none := by
    by_contra hnone
    have hok : Literal.heredoc content = .ok (wrapped content) :=
      heredoc_eq_ok_iff.mpr ⟨rfl, fun line hline =>
        Classical.byContradiction fun hcloses => hnone ⟨line, hline, hcloses⟩⟩
    rw [hok] at h
    exact absurd h (by simp only [reduceCtorEq, not_false_eq_true])
  rcases hline with ⟨line, hline, hcloses⟩
  rcases Heredoc.exists_closes isLabel_heredocDelimiter hline hcloses heredocDelimiter with
    ⟨body, after, htext, hafter, hbody⟩
  have hwrapped : wrapped content = openingLine ++ body ++ after := by
    rw [wrapped, htext, List.append_assoc]
  have hfirst := Lexing.of_token (List.append_ne_nil_of_left_ne_nil (List.cons_ne_nil _ _) _) rfl
    (scan_openingLine hbody)
  rcases hfirst.1 with ⟨trailing, more, htokens⟩
  refine ⟨_, _, hwrapped ▸ htokens, ?_⟩
  rw [Token.stop_spanAt_zero, hwrapped, size_append (openingLine ++ body)]
  exact Nat.lt_add_of_pos_right (size_pos hafter)

/-- The check refuses exactly the contents that would end the token too early. What passes gives
    one token that is the whole heredoc, in front of every text that begins with no character of a
    name, and nothing is reported about it. -/
theorem heredoc_delimits (content : Text) :
    (∀ heredoc, Literal.heredoc content = .ok heredoc →
      ∀ after : Text, after.head?.any isIdentContinue = false →
        (∃ trailing more, (Lexing.of (heredoc ++ after)).tokens =
          ⟨[], .heredocString, heredoc, trailing⟩ :: more) ∧
        ∀ diagnostic ∈ (Lexing.of (heredoc ++ after)).errors,
          size heredoc ≤ diagnostic.span.start) ∧
    ((∃ error, Literal.heredoc content = .error error) ↔
      ∃ tok more, (Lexing.of (wrapped content)).tokens = tok :: more ∧
        (tok.spanAt 0).stop < size (wrapped content)) := by
  refine ⟨fun heredoc h after hafter => of_heredoc h hafter, fun ⟨error, h⟩ => of_wrapped h, ?_⟩
  rintro ⟨tok, more, htokens, hstop⟩
  rcases hmade : Literal.heredoc content with error | heredoc
  · exact ⟨error, rfl⟩
  -- A heredoc that was made is its own first token, so that token does not end before it.
  rcases (@of_heredoc _ _ hmade [] rfl).1 with ⟨trailing, others, hfirst⟩
  rw [List.append_nil, (heredoc_eq_ok_iff.mp hmade).1, htokens] at hfirst
  rw [(List.cons.inj hfirst).1, Token.stop_spanAt_zero] at hstop
  exact absurd hstop (Nat.lt_irrefl _)

example : [" \tHEREDOC_DELIMITER;", "HEREDOC_DELIMITERS", "HEREDOC_DELIMITERé", "; HEREDOC_DELIMITER"
    ].map (closesHeredoc ∘ String.toList) = [true, false, false, false] := by decide

end Literal

end PhpAssist

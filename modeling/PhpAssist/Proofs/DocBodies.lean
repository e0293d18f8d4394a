import PhpAssist.Proofs.Delimiters
import PhpAssist.Proofs.Literals

/-!
# The body of a heredoc that was made

A rewrite wraps a content in an opening line and a label, and a later rewrite may find that heredoc
as a literal of a longer chain and unwrap it again. Unwrapping cuts the first and the last line off,
takes the indentation of the last line off the others, drops the carriage returns at their ends and
puts them together again. The label that was made stands at the beginning of its line, so there is
no indentation, and lines that are put together again are the text they were cut from. What is left
are the carriage returns. They are characters of the content like any other, and wrapping keeps
them, but unwrapping does not: a content comes back as it is if none of its lines ends in one, and
without them otherwise.

## Main definitions

* `Text.withoutReturns`: A text without the carriage returns at the ends of its lines.

## Theorems

* `Text.joinLines_lines`, `Text.lines_joinLines`: Lines are cut and put together.
* `Literal.docBody_wrapped`: The body of a wrapped content.
* `Literal.docBody_heredoc`: What a later rewrite sees.
* `Literal.docBody_drops_returns`: A carriage return that is lost.
-/

namespace PhpAssist

namespace Text

/-! ## Lines -/

/-- A text without the carriage returns at the ends of its lines. -/
def withoutReturns (text : Text) : Text :=
  joinLines ((lines text).map (dropEndWhile (· == '\r')))

theorem joinLines_cons_cons (line next : Text) (more : List Text) :
    joinLines (line :: next :: more) = line ++ '\n' :: joinLines (next :: more) := rfl

/-- Lines put together are the text they were cut from. -/
theorem joinLines_lines (text : Text) : joinLines (lines text) = text := by
  induction text with
  | nil => rfl
  | cons c text ih =>
    rcases exists_lines text with ⟨line, more, hlines⟩
    rw [hlines] at ih
    by_cases hc : c = '\n'
    · rw [hc, lines, hlines, joinLines_cons_cons, ih, List.nil_append]
    · rw [lines_cons hc, hlines]
      dsimp only
      rcases more with _ | ⟨next, more⟩
      · exact congrArg (c :: ·) ih
      · rw [joinLines_cons_cons] at ih ⊢
        rw [List.cons_append, ih]

/-- A line has no line end. -/
theorem not_mem_of_mem_lines {text line : Text} (h : line ∈ lines text) : '\n' ∉ line := by
  induction text generalizing line with
  | nil =>
    rw [List.mem_singleton.mp h]
    exact List.not_mem_nil
  | cons c text ih =>
    by_cases hc : c = '\n'
    · rw [hc, lines] at h
      rcases List.mem_cons.mp h with rfl | h
      · exact List.not_mem_nil
      · exact ih h
    · rcases exists_lines text with ⟨first, more, hlines⟩
      rw [hlines] at ih
      rw [lines_cons hc, hlines] at h
      rcases List.mem_cons.mp h with rfl | h
      · rw [List.mem_cons, not_or]
        exact ⟨Ne.symm hc, ih List.mem_cons_self⟩
      · exact ih (List.mem_cons_of_mem _ h)

/-- Lines are cut where they were put together. -/
theorem lines_joinLines {row : List Text} (hne : row ≠ []) (h : ∀ line ∈ row, '\n' ∉ line) :
    lines (joinLines row) = row := by
  induction row with
  | nil => exact absurd rfl hne
  | cons line more ih =>
    rw [List.forall_mem_cons] at h
    rcases more with _ | ⟨next, more⟩
    · exact lines_of_not_mem h.1
    · rw [joinLines_cons_cons, lines_line h.1, ih (List.cons_ne_nil _ _) h.2]

/-- One more line behind a text. -/
theorem lines_append_line (text : Text) {last : Text} (hlast : '\n' ∉ last) :
    lines (text ++ '\n' :: last) = lines text ++ [last] := by
  induction text with
  | nil => exact congrArg ([] :: ·) (lines_of_not_mem hlast)
  | cons c text ih =>
    rw [List.cons_append]
    by_cases hc : c = '\n'
    · rw [hc, lines, lines, ih, List.cons_append]
    · rcases exists_lines text with ⟨line, more, hlines⟩
      rw [lines_cons hc, lines_cons hc, ih, hlines]
      rfl

/-- A text keeps its end when it does not end in what is dropped. -/
theorem dropEndWhile_eq_self_iff {c : Char} {text : Text} :
    dropEndWhile (· == c) text = text ↔ text.getLast? ≠ some c := by
  rcases List.eq_nil_or_concat text with rfl | ⟨front, d, rfl⟩
  · exact iff_of_true rfl (by simp only [List.getLast?_nil, ne_eq, reduceCtorEq, not_false_eq_true])
  rw [List.concat_eq_append, List.getLast?_concat]
  by_cases hd : d = c
  · refine iff_of_false (fun h => ?_) (not_not.mpr (congrArg some hd))
    have hrun := dropEndWhile_append_takeEndWhile (· == c) (front ++ [d])
    rw [h, takeEndWhile_concat, if_pos (beq_iff_eq.mpr hd)] at hrun
    exact absurd (List.append_right_eq_self.mp hrun)
      (List.append_ne_nil_of_right_ne_nil _ (List.cons_ne_nil _ _))
  · refine iff_of_true ?_ fun h => hd (Option.some.inj h)
    exact @dropEndWhile_append (· == c) front [] d (beq_eq_false_iff_ne.mpr hd) rfl

/-- Nothing is dropped exactly when no line ends in a carriage return. -/
theorem withoutReturns_eq_self_iff {text : Text} :
    withoutReturns text = text ↔ ∀ line ∈ lines text, line.getLast? ≠ some '\r' := by
  have hlines : lines (withoutReturns text) = (lines text).map (dropEndWhile (· == '\r')) := by
    rcases exists_lines text with ⟨line, more, hlines⟩
    refine lines_joinLines (by rw [hlines]; exact List.cons_ne_nil _ _) fun other hother => ?_
    rcases List.mem_map.mp hother with ⟨whole, hwhole, rfl⟩
    -- A shorter line has no more characters than the whole one.
    refine fun hmem => not_mem_of_mem_lines hwhole ?_
    rw [← dropEndWhile_append_takeEndWhile (· == '\r') whole]
    exact List.mem_append_left _ hmem
  have hmap : withoutReturns text = text ↔
      (lines text).map (dropEndWhile (· == '\r')) = (lines text).map id := by
    rw [List.map_id]
    refine ⟨fun h => hlines.symm.trans (congrArg lines h), fun h => ?_⟩
    rw [withoutReturns, h, joinLines_lines]
  rw [hmap, List.map_inj_left]
  exact forall₂_congr fun line _ => dropEndWhile_eq_self_iff

end Text

namespace Literal

open Text

variable {content heredoc : Text}

/-- The body of a wrapped content is the content without carriage returns at the ends of its
    lines. -/
theorem docBody_wrapped (content : Text) :
    docBody (wrapped content) = .ok content.withoutReturns := by
  have hopening : '\n' ∉ ['<', '<', '<'] ++ heredocDelimiter := by decide
  have hlabel : '\n' ∉ heredocDelimiter := by decide
  have hlines : lines (wrapped content) =
      (['<', '<', '<'] ++ heredocDelimiter) :: (lines content ++ [heredocDelimiter]) := by
    rw [wrapped, openingLine, List.append_assoc, List.singleton_append, lines_line hopening,
      lines_append_line content hlabel]
  rcases exists_lines content with ⟨line, more, hcontent⟩
  have hrow : line :: (more ++ [heredocDelimiter]) = lines content ++ [heredocDelimiter] := by
    rw [hcontent, List.cons_append]
  rw [docBody, hlines, hcontent]
  dsimp only [List.cons_append]
  -- The label begins its line, so no indentation is taken off.
  have hline : bodyLine [] = dropEndWhile (· == '\r') := funext fun _ => rfl
  rw [hrow, List.dropLast_concat, List.getLastD_concat,
    show heredocDelimiter.takeWhile isBlank = [] from rfl, hline, withoutReturns]

/-- A literal whose token is a heredoc reads as its body. -/
theorem contents_of_heredoc {literal : Tree} {tok : Token} {body : Text}
    (htoken : literal.childToken? Kind.isString = some tok) (hkind : tok.kind = .heredocString)
    (hbody : docBody tok.text = .ok body) :
    heredocContent literal = .ok body ∧
      doubleContent literal = .ok (Escape.doubleOfHeredoc body) := by
  have hparts : parts literal = .ok (.heredoc, tok.text) :=
    parts_of_childToken? htoken (by rw [hkind]; rfl)
  rw [heredocContent, doubleContent, hparts]
  refine ⟨hbody, ?_⟩
  show (do return Escape.doubleOfHeredoc (← docBody tok.text) : Except AssistError Text) = _
  rw [hbody]
  rfl

/-- The body of a heredoc that was made is its content without the carriage returns at the ends of
    its lines, so it is the content itself exactly when no line ends in one. A later rewrite that
    finds the heredoc as a literal sees that body. -/
theorem docBody_heredoc (h : Literal.heredoc content = .ok heredoc) :
    docBody heredoc = .ok content.withoutReturns ∧
    (docBody heredoc = .ok content ↔ ∀ line ∈ lines content, line.getLast? ≠ some '\r') ∧
    ∀ (literal : Tree) (tok : Token), literal.childToken? Kind.isString = some tok →
      tok.kind = .heredocString → tok.text = heredoc →
        heredocContent literal = .ok content.withoutReturns ∧
        doubleContent literal = .ok (Escape.doubleOfHeredoc content.withoutReturns) := by
  have hbody : docBody heredoc = .ok content.withoutReturns := by
    rw [(heredoc_eq_ok_iff.mp h).1, docBody_wrapped]
  refine ⟨hbody, ?_, fun literal tok htoken hkind htext => ?_⟩
  · rw [hbody, Except.ok.injEq, withoutReturns_eq_self_iff]
  · exact contents_of_heredoc htoken hkind (htext ▸ hbody)

/-- A content with indented and empty lines and a blank at its end comes back as it is. -/
theorem docBody_heredoc_blanks :
    Literal.heredoc "  a\n\n\tb ".toList =
        .ok "<<<HEREDOC_DELIMITER\n  a\n\n\tb \nHEREDOC_DELIMITER".toList ∧
      docBody "<<<HEREDOC_DELIMITER\n  a\n\n\tb \nHEREDOC_DELIMITER".toList =
        .ok "  a\n\n\tb ".toList ∧
      heredocContent (.node .stringLiteral [.token ⟨[], .heredocString,
          "<<<HEREDOC_DELIMITER\n  a\n\n\tb \nHEREDOC_DELIMITER".toList, []⟩]) =
        .ok "  a\n\n\tb ".toList := by
  have hmade : Literal.heredoc "  a\n\n\tb ".toList =
      .ok "<<<HEREDOC_DELIMITER\n  a\n\n\tb \nHEREDOC_DELIMITER".toList := rfl
  rcases docBody_heredoc hmade with ⟨_, hsame, hliteral⟩
  exact ⟨hmade, hsame.mpr (by decide), (hliteral _ _ rfl rfl rfl).1⟩

/-- A carriage return at the end of a line does not come back, although it was wrapped. -/
theorem docBody_drops_returns :
    Literal.heredoc "a\r\nb".toList =
        .ok "<<<HEREDOC_DELIMITER\na\r\nb\nHEREDOC_DELIMITER".toList ∧
      docBody "<<<HEREDOC_DELIMITER\na\r\nb\nHEREDOC_DELIMITER".toList = .ok "a\nb".toList ∧
      "a\nb".toList ≠ "a\r\nb".toList :=
  ⟨rfl, rfl, by decide⟩

end Literal

end PhpAssist

import PhpAssist.Token
import PhpAssist.Token.Cut

/-!
# Trivia

Blanks, line ends and comments are read into pieces, each as long as its sort allows. Leading
trivia may run over line ends; trailing trivia may not, so that a comment on the line of a token
belongs to that token and a comment above a token belongs to the one below.

A NUL character ends a line comment, as the end of the text does.

## Main definitions

* `Trivia.scan?`: Takes one piece of trivia.
* `Trivia.scanAll`: Takes trivia for as long as there is some.

## Theorems

* `Trivia.splits_scan?`, `Trivia.taken_scan?_ne_nil`: A piece splits the text and is not empty.
* `Trivia.scanAll_splits`: The pieces and the rest are the text.
-/

namespace PhpAssist

namespace Trivia

/-- A character that ends a line. -/
def isLineEnd (c : Char) : Bool := c == '\n' || c == '\r'

/-- A blank within a line. -/
def isSpace (c : Char) : Bool := c == ' ' || c == '\t' || c == '\x0c'

/-- The characters a line comment goes on over. -/
def isCommentChar (c : Char) : Bool := c != '\n' && c != '\x00'

/-- Takes the rest of a block comment, its end included. -/
def closeComment : Text → Cut
  | [] => ⟨[], [], false⟩
  | '*' :: '/' :: rest => ⟨['*', '/'], rest, true⟩
  | c :: rest => (closeComment rest).cons c

/-- Takes one piece of trivia. Line ends count only as leading trivia. -/
def scan? (leading : Bool) : Text → Option (TriviaKind × Cut)
  | [] => none
  | c :: rest =>
    if leading && isLineEnd c then some (.newline, (Cut.run isLineEnd rest).cons c)
    else if isSpace c then some (.whitespace, (Cut.run isSpace rest).cons c)
    else if c = '#' ∨ (c = '/' ∧ rest.head? = some '/') then
      some (.lineComment, (Cut.run isCommentChar rest).cons c)
    else
      match c, rest with
      | '/', '*' :: body => some (.blockComment, ((closeComment body).cons '*').cons '/')
      | _, _ => none

theorem scan?_cons (leading : Bool) (c : Char) (rest : Text) : scan? leading (c :: rest) =
    if leading && isLineEnd c then some (.newline, (Cut.run isLineEnd rest).cons c)
    else if isSpace c then some (.whitespace, (Cut.run isSpace rest).cons c)
    else if c = '#' ∨ (c = '/' ∧ rest.head? = some '/') then
      some (.lineComment, (Cut.run isCommentChar rest).cons c)
    else
      match c, rest with
      | '/', '*' :: body => some (.blockComment, ((closeComment body).cons '*').cons '/')
      | _, _ => none := rfl

theorem splits_closeComment (text : Text) : (closeComment text).Splits text := by
  fun_induction closeComment text with
  | case1 => rfl
  | case2 => rfl
  | case3 c rest _ ih => exact ih.cons c

theorem splits_scan? {leading : Bool} {text : Text} {kind : TriviaKind} {cut : Cut}
    (h : scan? leading text = some (kind, cut)) : cut.Splits text := by
  revert h
  fun_cases scan? leading text with
  | case1 => exact fun h => absurd h (by simp only [reduceCtorEq, not_false_eq_true])
  | case2 c rest =>
    intro h
    injection h with h
    injection h with _ h
    exact h ▸ (Cut.splits_run isLineEnd rest).cons c
  | case3 c rest =>
    intro h
    injection h with h
    injection h with _ h
    exact h ▸ (Cut.splits_run isSpace rest).cons c
  | case4 c rest =>
    intro h
    injection h with h
    injection h with _ h
    exact h ▸ (Cut.splits_run isCommentChar rest).cons c
  | case5 body =>
    intro h
    injection h with h
    injection h with _ h
    exact h ▸ ((splits_closeComment body).cons '*').cons '/'
  | case6 => exact fun h => absurd h (by simp only [reduceCtorEq, not_false_eq_true])

theorem taken_scan?_ne_nil {leading : Bool} {text : Text} {kind : TriviaKind} {cut : Cut}
    (h : scan? leading text = some (kind, cut)) : cut.taken ≠ [] := by
  revert h
  fun_cases scan? leading text with
  | case1 => exact fun h => absurd h (by simp only [reduceCtorEq, not_false_eq_true])
  | case2 | case3 | case4 | case5 =>
    intro h
    injection h with h
    injection h with _ h
    rw [← h]
    simp only [Cut.cons, ne_eq, reduceCtorEq, not_false_eq_true]
  | case6 => exact fun h => absurd h (by simp only [reduceCtorEq, not_false_eq_true])

/-- Trivia read from a text: the pieces, what is left, and whether the last comment was closed. -/
structure Run where
  pieces : List Trivia
  rest : Text
  closed : Bool

/-- The number of bytes that were taken. -/
def Run.size (run : Run) : Nat := Text.size (run.pieces.flatMap Trivia.text)

/-- Takes trivia for as long as there is some. A comment that is not closed is the last piece,
    because it runs to the end. -/
def scanAll (leading : Bool) (text : Text) : Run :=
  match _h : scan? leading text with
  | none => ⟨[], text, true⟩
  | some (kind, cut) =>
    let more := scanAll leading cut.rest
    ⟨⟨kind, cut.taken⟩ :: more.pieces, more.rest, cut.closed && more.closed⟩
termination_by text.length
decreasing_by exact (splits_scan? _h).rest_length_lt (taken_scan?_ne_nil _h)

theorem scanAll_splits (leading : Bool) (text : Text) :
    (scanAll leading text).pieces.flatMap Trivia.text ++ (scanAll leading text).rest = text := by
  fun_induction scanAll leading text with
  | case1 => rfl
  | case2 text kind cut h more ih =>
    rw [List.flatMap_cons, List.append_assoc, ih]
    exact splits_scan? h

theorem rest_scanAll_length_le (leading : Bool) (text : Text) :
    (scanAll leading text).rest.length ≤ text.length := by
  have h := congrArg List.length (scanAll_splits leading text)
  rw [List.length_append] at h
  omega

end Trivia

end PhpAssist

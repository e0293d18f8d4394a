import PhpAssist.Text

/-!
# Cutting a text

Reading a token cuts a text in two: what was taken and what is left. The scanners all answer
with a cut, and each of them has the same two facts: the two parts are the text, and something
was taken. The first says that no text is lost or invented; the second is why reading a text
comes to an end.

## Main definitions

* `Cut`: What was taken, what is left, and whether the end that was looked for was found.
* `Cut.run`: Takes the characters that satisfy a predicate.
* `Cut.cons`, `Cut.prepend`: Puts characters in front of what was taken.
* `Cut.andThen`: Goes on with what was left.
* `Cut.Splits`: The two parts of a cut make up a text.

## Theorems

* `Cut.splits_run`, `Cut.Splits.cons`, `Cut.Splits.prepend`, `Cut.Splits.andThen`: The operations
  above split a text.
* `Cut.Splits.rest_length_lt`: A cut that took something left a shorter text.
-/

namespace PhpAssist

/-- A text cut in two. `closed` says whether the end that was looked for was found. -/
structure Cut where
  taken : Text
  rest : Text
  closed : Bool

namespace Cut

/-- Takes the longest initial part all of whose characters satisfy `p`. -/
def run (p : Char → Bool) (text : Text) : Cut :=
  ⟨text.takeWhile p, text.dropWhile p, true⟩

/-- Puts a character in front of what was taken. -/
def cons (c : Char) (cut : Cut) : Cut := { cut with taken := c :: cut.taken }

/-- Puts a text in front of what was taken. -/
def prepend (head : Text) (cut : Cut) : Cut := { cut with taken := head ++ cut.taken }

/-- Continues a cut with a scan of what it left. -/
def andThen (cut : Cut) (scan : Text → Cut) : Cut := (scan cut.rest).prepend cut.taken

/-- The two parts of the cut make up the text. -/
def Splits (cut : Cut) (text : Text) : Prop := cut.taken ++ cut.rest = text

theorem splits_run (p : Char → Bool) (text : Text) : (run p text).Splits text :=
  List.takeWhile_append_dropWhile

theorem Splits.cons {cut : Cut} {text : Text} (h : cut.Splits text) (c : Char) :
    (cut.cons c).Splits (c :: text) := by
  simpa only [Splits, Cut.cons, List.cons_append, List.cons.injEq, true_and] using h

theorem Splits.prepend {cut : Cut} {text : Text} (h : cut.Splits text) (head : Text) :
    (cut.prepend head).Splits (head ++ text) := by
  simpa only [Splits, Cut.prepend, List.append_assoc, List.append_cancel_left_eq] using h

theorem Splits.andThen {cut : Cut} {text : Text} {scan : Text → Cut} (h : cut.Splits text)
    (hscan : (scan cut.rest).Splits cut.rest) : (cut.andThen scan).Splits text := by
  have h' := hscan.prepend cut.taken
  rwa [show cut.taken ++ cut.rest = text from h] at h'

/-- A cut that took something left a shorter text. -/
theorem Splits.rest_length_lt {cut : Cut} {text : Text} (h : cut.Splits text)
    (htaken : cut.taken ≠ []) : cut.rest.length < text.length := by
  rw [← show cut.taken ++ cut.rest = text from h, List.length_append]
  have := List.length_pos_iff.mpr htaken
  omega

end Cut

end PhpAssist

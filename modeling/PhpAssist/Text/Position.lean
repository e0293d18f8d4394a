import PhpAssist.Text

/-!
# Lines and columns

People name a place by its line and column, programs by its offset. Lines end at line feeds, and
a text that ends in one has an empty last line. Lines and columns count from zero here.

## Main definitions

* `Text.lineStart?`: Where a line begins.
* `Text.offsetAt?`: The offset of a line and a column.
* `Text.lineOf`: The line of an offset.
-/

namespace PhpAssist

namespace Text

/-- The offset at which a line begins, the first of the lines beginning at `start`. -/
def lineStartFrom? (start : Nat) : Nat → List Text → Option Nat
  | _, [] => none
  | 0, _ :: _ => some start
  | line + 1, first :: more => lineStartFrom? (start + size first + 1) line more

/-- The offset at which a line begins. -/
def lineStart? (text : Text) (line : Nat) : Option Nat := lineStartFrom? 0 line (lines text)

/-- The offset of a column, in bytes, of a line. A column behind the end of its line counts on
    into the next lines, but not past the end of the text. -/
def offsetAt? (text : Text) (line column : Nat) : Option Nat :=
  (lineStart? text line).bind fun start =>
    if start + column ≤ text.size then some (start + column) else none

/-- The number of line ends before an offset. -/
def lineOf (text : Text) (offset : Nat) : Nat := (takeBytes offset text).count '\n'

end Text

end PhpAssist

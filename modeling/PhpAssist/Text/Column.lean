import PhpAssist.Text

/-!
# Columns

How wide a text is where people read it. Most characters take one column. A tab is shown as four
spaces, and a control character is not shown at all, so its width is a matter of agreement.

## Main definitions

* `Text.isWhite`: White space of all scripts.
* `Text.untabbed`: A text with its tabs as spaces.
* `Text.columns`: The width of a text.
* `Text.indent?`: The width of the white space that a text begins with.
-/

namespace PhpAssist

namespace Text

/-- Ranges of characters that are white space. -/
def white : List (Nat × Nat) :=
  [(0x09, 0x0d), (0x20, 0x20), (0x85, 0x85), (0xa0, 0xa0), (0x1680, 0x1680), (0x2000, 0x200a),
   (0x2028, 0x2029), (0x202f, 0x202f), (0x205f, 0x205f), (0x3000, 0x3000)]

/-- A character of white space. -/
def isWhite (c : Char) : Bool := white.any fun range => range.1 ≤ c.toNat && c.toNat ≤ range.2

/-- A control character. -/
def isControl (c : Char) : Bool := c.toNat < 0x20 || (0x7f ≤ c.toNat && c.toNat < 0xa0)

/-- The columns of a tab. -/
def tabWidth : Nat := 4

/-- The columns of a character, given those of a control character. -/
def charColumns (control : Nat) (c : Char) : Nat :=
  if c = '\t' then tabWidth else if isControl c then control else 1

/-- The columns of a text, given those of a control character. -/
def columns (control : Nat) (text : Text) : Nat :=
  text.foldr (fun c total => charColumns control c + total) 0

/-- A text with spaces in place of its tabs. -/
def untabbed (text : Text) : Text :=
  text.flatMap fun c => if c = '\t' then List.replicate tabWidth ' ' else [c]

/-- The columns of the white space that a text begins with, `none` if there is nothing else in
    it. A control character that is white space counts as one column here. -/
def indent? (text : Text) : Option Nat :=
  if text.all isWhite then none else some (columns 1 (text.takeWhile isWhite))

end Text

end PhpAssist

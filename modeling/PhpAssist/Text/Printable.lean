import PhpAssist.Text

/-!
# Quoting for people

A text that is shown to a person stands in double quotes, with a backslash before what would be
misread and a number in place of what cannot be seen: control characters, blanks other than the
space, characters without a shape of their own and characters that join the one before them.

## Main definitions

* `Text.invisible`: The ranges of characters that are shown by number.
* `Text.display`: The quoted form of a text.
-/

namespace PhpAssist

namespace Text

/-- Ranges of characters that are shown by number: controls, separators, combining and joining
    marks, direction marks, variation selectors and private use. -/
def invisible : List (Nat × Nat) :=
  [(0x00, 0x1f), (0x7f, 0xa0), (0xad, 0xad), (0x300, 0x36f), (0x483, 0x489), (0x591, 0x5bd),
   (0x600, 0x605), (0x610, 0x61a), (0x61c, 0x61c), (0x64b, 0x65f), (0x670, 0x670),
   (0x6dd, 0x6dd), (0x70f, 0x70f), (0x1680, 0x1680), (0x180b, 0x180f), (0x1ab0, 0x1ace),
   (0x1dc0, 0x1dff), (0x2000, 0x200f), (0x2028, 0x202f), (0x205f, 0x206f), (0x20d0, 0x20f0),
   (0x3000, 0x3000), (0x302a, 0x302f), (0x3099, 0x309a), (0xe000, 0xf8ff), (0xfe00, 0xfe0f),
   (0xfe20, 0xfe2f), (0xfeff, 0xfeff), (0xfff0, 0xfffb), (0xfffe, 0xffff), (0xe0000, 0x10ffff)]

/-- A character that is shown by its number. -/
def isInvisible (c : Char) : Bool :=
  invisible.any fun range => range.1 ≤ c.toNat && c.toNat ≤ range.2

/-- A character as it stands between the quotes. -/
def displayChar (c : Char) : Text :=
  match c with
  | '\t' => ['\\', 't']
  | '\r' => ['\\', 'r']
  | '\n' => ['\\', 'n']
  | '"' => ['\\', '"']
  | '\\' => ['\\', '\\']
  | '\x00' => ['\\', '0']
  | c =>
    if isInvisible c then ['\\', 'u', '{'] ++ Nat.toDigits 16 c.toNat ++ ['}']
    else [c]

/-- A text in double quotes, for a person to read. -/
def display (text : Text) : Text := '"' :: text.flatMap displayChar ++ ['"']

end Text

end PhpAssist

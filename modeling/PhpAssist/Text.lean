/-!
# Texts and byte offsets

A text is its list of characters. Positions in it are counted in bytes of its UTF-8 encoding,
because that is what editors exchange; a position is good only where a character begins. The
functions here cut a text at such a position, and split it into lines.

## Main definitions

* `Text.size`: The number of bytes of a text.
* `Text.splitAt?`: The two parts of a text around a byte offset, if a character begins there.
* `Text.takeBytes`, `Text.dropBytes`: The same, rounded down to a character.
* `Text.lines`, `Text.rawLines`: The lines of a text, without and with their line ends.
* `Text.isIdentStart`, `Text.isIdentContinue`: The characters of names.
-/

namespace PhpAssist

/-- A text, as its list of characters. -/
abbrev Text := List Char

namespace Text

/-- The number of bytes of a text in UTF-8. -/
def size : Text → Nat
  | [] => 0
  | c :: rest => c.utf8Size + size rest

/-- The parts before and after byte `n`; `none` when `n` lies inside a character or past the
    end. -/
def splitAt? : Nat → Text → Option (Text × Text)
  | 0, text => some ([], text)
  | _ + 1, [] => none
  | n + 1, c :: rest =>
    if c.utf8Size ≤ n + 1 then
      (splitAt? (n + 1 - c.utf8Size) rest).map fun (before, after) => (c :: before, after)
    else
      none

/-- The longest initial part of at most `n` bytes. -/
def takeBytes : Nat → Text → Text
  | _, [] => []
  | n, c :: rest => if c.utf8Size ≤ n then c :: takeBytes (n - c.utf8Size) rest else []

/-- What follows the longest initial part of at most `n` bytes. -/
def dropBytes : Nat → Text → Text
  | _, [] => []
  | n, c :: rest => if c.utf8Size ≤ n then dropBytes (n - c.utf8Size) rest else c :: rest

/-- The lines of a text without their line ends. There is always one more line than there are
    line ends, so a text that ends in a line end has an empty last line. -/
def lines : Text → List Text
  | [] => [[]]
  | '\n' :: rest => [] :: lines rest
  | c :: rest =>
    match lines rest with
    | [] => [[c]]
    | line :: more => (c :: line) :: more

/-- The lines of a text, each with its line end. Joined together they are the text again. -/
def rawLines : Text → List Text
  | [] => []
  | '\n' :: rest => ['\n'] :: rawLines rest
  | c :: rest =>
    match rawLines rest with
    | [] => [[c]]
    | line :: more => (c :: line) :: more

/-- Puts lines together with a line end between each two. -/
def joinLines : List Text → Text
  | [] => []
  | [line] => line
  | line :: more => line ++ '\n' :: joinLines more

/-- The blanks that may stand before the closing word of a heredoc and that make up an
    indentation. -/
def isBlank (c : Char) : Bool := c == ' ' || c == '\t'

/-- A letter, an underscore, or any character outside ASCII. -/
def isIdentStart (c : Char) : Bool := c.isAlpha || c == '_' || 128 ≤ c.toNat

/-- A character that may begin a name, or a digit. -/
def isIdentContinue (c : Char) : Bool := isIdentStart c || c.isDigit

/-- Lower case for ASCII letters, which is all that reserved words and operators need. -/
def lower (text : Text) : Text := text.map Char.toLower

/-- Removes a tail of characters that satisfy `p`. -/
def dropEndWhile (p : Char → Bool) (text : Text) : Text :=
  (text.reverse.dropWhile p).reverse

/-- The longest tail of characters that satisfy `p`. -/
def takeEndWhile (p : Char → Bool) (text : Text) : Text :=
  (text.reverse.takeWhile p).reverse

/-- Whether a text ends in an odd number of backslashes, the last of which escapes what comes
    next. -/
def endsInEscape (text : Text) : Bool :=
  (text.takeEndWhile (· == '\\')).length % 2 == 1

/-- The text of a number in decimal. -/
def ofNat (n : Nat) : Text := (toString n).toList

end Text

end PhpAssist

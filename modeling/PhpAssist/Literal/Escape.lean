import PhpAssist.Text

/-!
# Escapes

The same characters are written differently in the four sorts of string literals. Single quotes
and nowdocs know nothing but themselves; double quotes and heredocs share their escapes, with
one exception: only double quotes have to escape a double quote.

## Main definitions

* `Escape.decodeSingle`: What a single quoted string says.
* `Escape.encodeDouble`, `Escape.encodeHeredoc`: Writing characters in double quotes or in a
  heredoc so that they stand for themselves.
* `Escape.doubleOfHeredoc`, `Escape.heredocOfDouble`: From one of the two to the other, escapes
  kept.
-/

namespace PhpAssist

namespace Escape

/-- What a single quoted string says: a backslash counts only before a backslash or a quote. -/
def decodeSingle : Text → Text
  | [] => []
  | '\\' :: '\\' :: rest => '\\' :: decodeSingle rest
  | '\\' :: '\'' :: rest => '\'' :: decodeSingle rest
  | c :: rest => c :: decodeSingle rest

/-- Puts a backslash before every character of a text that is to be escaped. -/
def escape (special : Char → Bool) : Text → Text
  | [] => []
  | c :: rest => if special c then '\\' :: c :: escape special rest else c :: escape special rest

/-- Writes characters in double quotes so that they stand for themselves. -/
def encodeDouble (text : Text) : Text :=
  escape (fun c => c == '\\' || c == '"' || c == '$') text

/-- Writes characters in a heredoc so that they stand for themselves. -/
def encodeHeredoc (text : Text) : Text :=
  escape (fun c => c == '\\' || c == '$') text

/-- From a heredoc to double quotes. An escaped quote is two characters in a heredoc, and both
    are escaped. -/
def doubleOfHeredoc : Text → Text
  | [] => []
  | '\\' :: '"' :: rest => '\\' :: '\\' :: '\\' :: '"' :: doubleOfHeredoc rest
  | '\\' :: c :: rest => '\\' :: c :: doubleOfHeredoc rest
  | '"' :: rest => '\\' :: '"' :: doubleOfHeredoc rest
  | c :: rest => c :: doubleOfHeredoc rest

/-- From double quotes to a heredoc. A quote needs no escape there, other escapes stay. -/
def heredocOfDouble : Text → Text
  | [] => []
  | '\\' :: '"' :: rest => '"' :: heredocOfDouble rest
  | '\\' :: c :: rest => '\\' :: c :: heredocOfDouble rest
  | c :: rest => c :: heredocOfDouble rest

end Escape

end PhpAssist

import PhpAssist.Diagnostic
import PhpAssist.Kind

/-!
# Tokens

A token owns the text it was read from and the trivia around it: what stands on the lines before
it, and what follows it on its own line. Because nothing of a text is left over between tokens,
a list of tokens says the whole text, and offsets need not be stored: they follow from what
comes before.

## Main definitions

* `Trivia`: A blank stretch, a run of line ends or a comment.
* `Token`: A kind, a text and the trivia around it.
* `Piece`: A stretch of text with its kind, which is what a token falls apart into.
* `Token.pieces`: The pieces of a token in order.
* `Token.spanAt`, `Token.fullSpanAt`: Where a token stands, without and with its trivia.
-/

namespace PhpAssist

/-- The four sorts of trivia. -/
inductive TriviaKind where
  | whitespace
  | newline
  | lineComment
  | blockComment
  deriving DecidableEq

/-- The kind under which a piece of trivia appears among the pieces of a tree. -/
def TriviaKind.kind : TriviaKind → Kind
  | .whitespace => .whitespace
  | .newline => .newline
  | .lineComment => .lineComment
  | .blockComment => .blockComment

/-- A stretch of text that never changes how the rest is read. -/
structure Trivia where
  kind : TriviaKind
  text : Text
  deriving DecidableEq

/-- A stretch of text and its kind. -/
structure Piece where
  kind : Kind
  text : Text
  deriving DecidableEq

/-- A piece of trivia with the kind that it has in a tree. -/
def Trivia.piece (trivia : Trivia) : Piece := ⟨trivia.kind.kind, trivia.text⟩

/-- A token with the trivia attached to it. -/
structure Token where
  leading : List Trivia
  kind : Kind
  text : Text
  trailing : List Trivia
  deriving DecidableEq

namespace Token

/-- The text of the trivia in front of a token. -/
def leadingText (token : Token) : Text := token.leading.flatMap Trivia.text

/-- The text of the trivia behind a token. -/
def trailingText (token : Token) : Text := token.trailing.flatMap Trivia.text

/-- The whole text of a token, its trivia included. -/
def fullText (token : Token) : Text := token.leadingText ++ token.text ++ token.trailingText

/-- The number of bytes of a token with its trivia. -/
def size (token : Token) : Nat := Text.size token.fullText

/-- The pieces of a token: leading trivia, the token itself, trailing trivia. -/
def pieces (token : Token) : List Piece :=
  token.leading.map Trivia.piece ++ ⟨token.kind, token.text⟩ :: token.trailing.map Trivia.piece

/-- Where the text of a token stands when its leading trivia begins at `offset`. -/
def spanAt (token : Token) (offset : Nat) : Span :=
  ⟨offset + Text.size token.leadingText, Text.size token.text⟩

/-- Where a token and its trivia stand when the leading trivia begins at `offset`. -/
def fullSpanAt (token : Token) (offset : Nat) : Span := ⟨offset, token.size⟩

end Token

end PhpAssist

import PhpAssist.Assist.Error
import PhpAssist.Literal.Escape
import PhpAssist.Token.Heredoc
import PhpAssist.Tree.View

/-!
# What a literal says

The text of a literal without its quotes or its opening and closing lines, written as it has to
be written in double quotes or in a heredoc.

## Main definitions

* `Literal.quotedInner`: The text between quotes.
* `Literal.docBody`: The lines of a heredoc, without the indentation of its closing line.
* `Literal.doubleContent`, `Literal.heredocContent`: A literal as it reads in double quotes and
  in a heredoc.
* `Literal.stripQuotes`: A quoted string as it reads in a heredoc.
* `Literal.closesHeredoc`, `Literal.heredoc`: A heredoc with a content, and the lines that it cannot
  have.
-/

namespace PhpAssist

namespace Literal

/-- The text between a quote at the start and the same quote at the end. A last quote that is
    escaped does not close anything. -/
def quotedInner (quote : Char) (text : Text) : Except AssistError Text :=
  match text with
  | first :: rest =>
    if first = quote ∧ rest.getLast? = some quote ∧ !Text.endsInEscape rest.dropLast then
      .ok rest.dropLast
    else .error (.malformed (.literal text))
  | [] => .error (.malformed (.literal text))

/-- A line without an indentation, if it has it, and without carriage returns at its end. -/
def bodyLine (indent line : Text) : Text :=
  Text.dropEndWhile (· == '\r') ((Text.after? indent line).getD line)

/-- The lines between the opening and the closing line of a heredoc. The indentation of the
    closing line is taken off each of them. -/
def docBody (text : Text) : Except AssistError Text :=
  match Text.lines text with
  | _ :: line :: more =>
    -- The last line closes the literal; its blanks are the indentation of all lines.
    let lines := line :: more
    let indent := (lines.getLastD []).takeWhile Text.isBlank
    .ok (Text.joinLines (lines.dropLast.map (bodyLine indent)))
  | _ => .error (.malformed (.literal text))

/-- The token of a literal and the way it is written. -/
def parts (literal : Tree) : Except AssistError (Quoting × Text) :=
  match literal.childToken? Kind.isString with
  | none => .error (.malformed (.literal literal.trimmed))
  | some token =>
    match Quoting.ofKind? token.kind with
    | none => .error (.malformed (.literal token.text))
    | some quoting => .ok (quoting, token.text)

/-- A literal as it reads in double quotes. -/
def doubleContent (literal : Tree) : Except AssistError Text := do
  let (quoting, text) ← parts literal
  match quoting with
  | .single => return Escape.encodeDouble (Escape.decodeSingle (← quotedInner '\'' text))
  | .double => quotedInner '"' text
  | .nowdoc => return Escape.encodeDouble (← docBody text)
  | .heredoc => return Escape.doubleOfHeredoc (← docBody text)

/-- A literal as it reads in a heredoc. -/
def heredocContent (literal : Tree) : Except AssistError Text := do
  let (quoting, text) ← parts literal
  match quoting with
  | .single => return Escape.encodeHeredoc (Escape.decodeSingle (← quotedInner '\'' text))
  | .double => return Escape.heredocOfDouble (← quotedInner '"' text)
  | .nowdoc => return Escape.encodeHeredoc (← docBody text)
  | .heredoc => docBody text

/-- A quoted string as it reads in a heredoc. -/
def stripQuotes (literal : Text) : Except AssistError Text :=
  match literal with
  | first :: second :: rest =>
    let inner := (second :: rest).dropLast
    if (second :: rest).getLast? = some first then
      if first = '"' then .ok (Escape.heredocOfDouble inner)
      else if first = '\'' then .ok (Escape.encodeHeredoc (Escape.decodeSingle inner))
      else .error (.malformed (.unmatchedQuotes literal))
    else .error (.malformed (.unmatchedQuotes literal))
  | _ => .error (.malformed (.unmatchedQuotes literal))

/-- Whether a line would close a heredoc that a rewrite makes: behind blanks it has the delimiter,
    and no name goes on there. -/
def closesHeredoc (line : Text) : Bool :=
  (Text.after? heredocDelimiter (line.dropWhile Text.isBlank)).any fun rest =>
    !rest.head?.any Text.isIdentContinue

/-- A heredoc with a content. No line of the content may close it. -/
def heredoc (content : Text) : Except AssistError Text :=
  if (Text.lines content).any closesHeredoc then
    .error (.malformed .closesHeredoc)
  else
    .ok (['<', '<', '<'] ++ heredocDelimiter ++ '\n' :: content ++ '\n' :: heredocDelimiter)

end Literal

end PhpAssist

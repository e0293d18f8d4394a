import PhpAssist.Diagnostic
import PhpAssist.Report.Row
import PhpAssist.Report.Window
import PhpAssist.Text.Position

/-!
# Showing a diagnostic

A diagnostic is shown to people with the line it is about and a marker under the place. The
marker is at least one column wide, so that an empty place can be seen too. Of a line that is
long or far to the right only a part is shown. A place at which no line has anything is shown by
the frame alone.

## Main definitions

* `Snippet`: The line that a span begins in.
* `Snippet.of?`: The line, if there is anything of it.
* `Diagnostic.rows`: A diagnostic as rows.
* `Diagnostic.render`: A diagnostic as text.
-/

namespace PhpAssist

/-- The line that a span begins in: its number, what it says, the number of characters in front
    of the span, and the columns that are marked. -/
structure Snippet where
  number : Nat
  line : Text
  before : Nat
  first : Nat
  stop : Nat

namespace Snippet

/-- The line that a span begins in; `none` for an empty line, unless the span reaches over its
    end. -/
def of? (text : Text) (span : Span) : Option Snippet :=
  let lineStart :=
    span.start - Text.size ((Text.takeBytes span.start text).takeEndWhile (· != '\n'))
  let content := (Text.dropBytes lineStart text).takeWhile (· != '\n')
  let isOver := decide (lineStart + Text.size content < span.stop)
  -- A carriage return belongs to the line end only for a span that reaches over that end.
  let line := if isOver && content.getLast? == some '\r' then content.dropLast else content
  let lineTo (offset : Nat) : Text := Text.takeBytes (offset - lineStart) line
  let first := Text.columns 0 (lineTo span.start)
  if content.isEmpty && !isOver then none
  else some
    { number := Text.lineOf text span.start + 1
      line := line
      before := (lineTo span.start).length
      first := first
      stop := max (first + 1) (Text.columns 0 (lineTo span.stop)) }

/-- What stands behind the marker. -/
def label : Text := "here".toList

/-- The columns of the number of the line. -/
def gutter (snippet : Snippet) : Nat := (toString snippet.number).length

/-- The column at which the line begins, behind its number, a space, a bar and another space. -/
def codeColumn (snippet : Snippet) : Nat := snippet.gutter + 3

/-- The window onto the line. The screen has to have room for the number of the next line too. -/
def window (snippet : Snippet) : Window :=
  Window.of (Window.screen - ((toString (snippet.number + 1)).length + 3))
    { indent := Text.indent? snippet.line
      first := snippet.first
      stop := snippet.stop
      labelStop := snippet.stop + 1 + label.length
      length := Text.size snippet.line
      shown := Text.size (Text.untabbed snippet.line) }

/-- What stands for a part of a line that is not shown. -/
def dots : Text := "...".toList

/-- The row with the line. -/
def codeRow (snippet : Snippet) : Row :=
  let window := snippet.window
  let code := Window.fit window.width ((Text.untabbed snippet.line).drop window.left)
  let row := Row.ofText .frame (toString snippet.number ++ " |").toList
    |>.write snippet.codeColumn .plain code
  let row := if window.cutLeft then row.write snippet.codeColumn .frame dots else row
  if window.cutRight then
    row.write (snippet.codeColumn + Text.columns 1 code - dots.length) .frame dots
  else row

/-- The row with the marker and the label. Where so much of the line is left out that the marker
    lies before the line, it goes over the frame. -/
def markerRow (snippet : Snippet) (bar : Row) : Row :=
  let hidden := Text.columns 1 ((Text.untabbed snippet.line).take snippet.window.left)
  let row := bar.write (snippet.codeColumn + (snippet.stop + 1 - hidden)) .severity label
  (List.range' snippet.first (snippet.stop - snippet.first)).foldl
    (fun row column => row.write (snippet.codeColumn + column - hidden) .severity ['^']) row

end Snippet

namespace Diagnostic

/-- The row with a file and a place in it. -/
def originRow (gutter : Nat) (path : String) (line column : Nat) : Row :=
  let place := path ++ ":" ++ toString line ++ ":" ++ toString column
  Row.write gutter .frame "-->".toList [] |>.write (gutter + 4) .plain place.toList

/-- The frame without a line. -/
def barRow (gutter : Nat) : Row := Row.write (gutter + 1) .frame ['|'] []

/-- A diagnostic with the line it is about, row by row. -/
def rows (path : String) (text : Text) (diagnostic : Diagnostic) : List Row :=
  let title := Row.ofText .severity "error".toList ++ Row.ofText .plain ": ".toList
    ++ Row.ofText .message diagnostic.message.toList
  match Snippet.of? text diagnostic.span with
  | none => [title, originRow 0 path 1 1, barRow 0, barRow 0]
  | some snippet =>
    let bar := barRow snippet.gutter
    [title, originRow snippet.gutter path snippet.number (snippet.before + 1), bar,
      snippet.codeRow, snippet.markerRow bar, bar]

/-- A diagnostic as text, the last line without a line end. -/
def render (style : Style) (path : String) (text : Text) (diagnostic : Diagnostic) : String :=
  "\n".intercalate ((diagnostic.rows path text).map (Row.render style))

end Diagnostic

end PhpAssist

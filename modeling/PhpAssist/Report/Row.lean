import PhpAssist.Text

/-!
# Rows of characters

What is shown on a terminal is made of rows. Each character of a row is drawn with an ink, and a
style says what an ink is: an escape code before and after, or nothing at all. A row can be
written to at any column, over what stands there.

## Main definitions

* `Ink`: The sorts of characters.
* `Style`: What stands before and after characters of a sort.
* `Row`, `Row.write`: A row, and writing into it.
* `Row.render`: A row as text.
-/

namespace PhpAssist

/-- The sorts of characters: ordinary ones, the severity and the marker, the message, and the
    frame around the line. -/
inductive Ink where
  | plain
  | severity
  | message
  | frame
  deriving DecidableEq

/-- How characters of each sort are set off. -/
structure Style where
  draw : Ink → String → String

namespace Style

/-- Nothing is set off. -/
def plain : Style := ⟨fun _ text => text⟩

/-- An escape code of a terminal. -/
def code (number : String) : String := "\x1b[" ++ number ++ "m"

/-- A text in bold, in a colour if there is one. -/
def bold (colour : String) (text : String) : String := code "1" ++ colour ++ text ++ code "0"

/-- Red for what is wrong, blue for the frame. -/
def terminal : Style where
  draw
    | .plain, text => text
    | .severity, text => bold (code "91") text
    | .message, text => bold "" text
    | .frame, text => bold (code "94") text

end Style

/-- A row of characters, each with its ink. -/
abbrev Row := List (Ink × Char)

namespace Row

/-- A text in one ink. -/
def ofText (ink : Ink) (text : Text) : Row := text.map fun c => (ink, c)

/-- A row that is as long as some column at least, with spaces at its end if need be. -/
def reach (column : Nat) (row : Row) : Row :=
  row ++ List.replicate (column - row.length) (.plain, ' ')

/-- Writes a text from a column on, over what stands there. -/
def write (column : Nat) (ink : Ink) (text : Text) (row : Row) : Row :=
  (row.reach column).take column ++ ofText ink text ++ row.drop (column + text.length)

/-- The longest stretches in one ink, from left to right. -/
def runs : Row → List (Ink × Text)
  | [] => []
  | (ink, c) :: more =>
    match runs more with
    | [] => [(ink, [c])]
    | (next, text) :: rest =>
      if ink = next then (ink, c :: text) :: rest else (ink, [c]) :: (next, text) :: rest

/-- A row as text. -/
def render (style : Style) (row : Row) : String :=
  String.join (row.runs.map fun run => style.draw run.1 (String.ofList run.2))

end Row

end PhpAssist

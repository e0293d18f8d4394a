import PhpAssist.Session

/-!
# Reports for programs

What a person reads on a line, a program reads as JSON. Reports are laid out with two spaces for
each level, and only those characters of a string are escaped that have to be.

## Main definitions

* `Json.string`, `Json.list`, `Json.record`: The values, laid out.
* `Report.assists`: The assists that are offered.
* `Report.change`: The edits of a change.
-/

namespace PhpAssist

namespace Json

/-- Some spaces. -/
def spaces (count : Nat) : String := String.ofList (List.replicate count ' ')

/-- A digit of a character code. -/
def hexDigit (n : Nat) : Char := (Nat.toDigits 16 n).headD '0'

/-- A character as it stands in a string. Control characters are escaped, by letter where there
    is one. -/
def escapeChar (c : Char) : List Char :=
  match c with
  | '"' => ['\\', '"']
  | '\\' => ['\\', '\\']
  | '\n' => ['\\', 'n']
  | '\r' => ['\\', 'r']
  | '\t' => ['\\', 't']
  | '\x08' => ['\\', 'b']
  | '\x0c' => ['\\', 'f']
  | c =>
    if c.toNat < 32 then
      ['\\', 'u', '0', '0', hexDigit (c.toNat / 16), hexDigit (c.toNat % 16)]
    else [c]

/-- A text in quotes. -/
def string (text : Text) : String := "\"" ++ String.ofList (text.flatMap escapeChar) ++ "\""

/-- Values between two brackets, each on a line of its own. `indent` is the indentation of the
    line that the opening bracket stands on. -/
def block (opening closing : String) (indent : Nat) (items : List String) : String :=
  if items.isEmpty then opening ++ closing
  else
    opening ++ "\n" ++ ",\n".intercalate (items.map (spaces (indent + 2) ++ ·)) ++ "\n"
      ++ spaces indent ++ closing

/-- Items in brackets, one to a line. -/
def list (indent : Nat) (items : List String) : String := block "[" "]" indent items

/-- Fields with their values in braces, one to a line. -/
def record (indent : Nat) (fields : List (String × String)) : String :=
  block "\x7b" "\x7d" indent (fields.map fun field => string field.1.toList ++ ": " ++ field.2)

end Json

namespace Report

/-- The assists that are offered, with the line each of them starts in, counted from one. -/
def assists (text : Text) (offered : List Assist) : String :=
  let entry (assist : Assist) : String :=
    Json.record 2
      [ ("id", Json.string assist.id.name.toList),
        ("label", Json.string assist.id.label.toList),
        ("start", toString assist.target.start),
        ("end", toString assist.target.stop),
        ("line", toString (Text.lineOf text assist.target.start + 1)) ]
  Json.list 0 (offered.map entry)

/-- The edits of a change to the file at a path. -/
def change (path : String) (change : Change) : String :=
  let entry (edit : Edit) : String :=
    Json.record 4
      [ ("start", toString edit.span.start),
        ("end", toString edit.span.stop),
        ("insert", Json.string edit.insert) ]
  Json.record 0
    [ ("path", Json.string path.toList),
      ("edits", Json.list 2 (change.edits.map entry)) ]

end Report

end PhpAssist

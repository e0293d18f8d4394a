import PhpAssist.Cli.Arguments
import PhpAssist.Report.Json
import PhpAssist.Report.Snippet

/-!
# The command line

A command reads one file, answers on its output and may write the file. What it does is a
function of the request and of what reading the file gave, so nothing here touches a file.

## Main definitions

* `Cli.ReadError`: Why a file cannot be read.
* `Cli.Failure`: What went wrong, with its causes.
* `Cli.Outcome`: What a command prints, writes and exits with.
* `Cli.execute`: Carries out a request.
* `Cli.run`: Reads arguments and carries out the request in them.
-/

namespace PhpAssist

namespace Cli

/-- Why a file cannot be read. -/
inductive ReadError where
  | missing
  | directory
  | notUtf8
  | other (reason : String)

/-- What the system says about a file that cannot be read. -/
def ReadError.message : ReadError → String
  | .missing => "No such file or directory (os error 2)"
  | .directory => "Is a directory (os error 21)"
  | .notUtf8 => "stream did not contain valid UTF-8"
  | .other reason => reason

/-- What went wrong, and the causes of it, each the cause of the one before. -/
structure Failure where
  message : String
  causes : List String

namespace Failure

/-- A text whose lines but the first are indented. -/
def hang (indent : Nat) (text : String) : String :=
  let lines := (Text.lines text.toList).map String.ofList
  ("\n" ++ Json.spaces indent).intercalate lines

/-- The causes as they are printed: a single one by itself, several with numbers. -/
def renderCauses : List String → String
  | [cause] => "    " ++ hang 4 cause ++ "\n"
  | causes =>
    String.join <| causes.zipIdx.map fun (cause, index) =>
      let number := toString index
      Json.spaces (5 - number.length) ++ number ++ ": " ++ hang 7 cause ++ "\n"

/-- A failure as it is shown, with its causes below it. -/
def render (failure : Failure) : String :=
  let head := "Error: " ++ failure.message ++ "\n"
  if failure.causes.isEmpty then head
  else head ++ "\nCaused by:\n" ++ renderCauses failure.causes

end Failure

/-- What a command prints, what it exits with, and what it writes into its file. -/
structure Outcome where
  exit : Nat
  stdout : String
  stderr : String
  written : Option Text

namespace Outcome

/-- Nothing went wrong, and something was shown. -/
def success (stdout : String) : Outcome := ⟨0, stdout, "", none⟩

/-- Something went wrong, and that is all that is shown. -/
def failed (failure : Failure) : Outcome := ⟨1, "", failure.render, none⟩

end Outcome

/-- How the program is called. -/
def usage : String :=
  "Usage: hereby [-v] check <PATH>\n" ++
  "       hereby [-v] assists <PATH> [--offset <N> | --line <N> --column <N>] [--json]\n" ++
  "       hereby [-v] apply <PATH> <ASSIST> [--offset <N> | --line <N> --column <N>]\n" ++
  "                    [--write] [--placeholder <TEXT>] [--json]\n"

/-- The offset that a cursor names in a text. Lines and columns count from one. -/
def Cursor.resolve (cursor : Cursor) (text : Text) : Except Failure Nat :=
  match cursor.offset, cursor.line, cursor.column with
  | some offset, _, _ =>
    let size := Text.size text
    if offset ≤ size then .ok offset
    else .error ⟨"offset " ++ toString offset ++ " is past the end (" ++ toString size ++ ")", []⟩
  | none, some line, some column =>
    let found := if line = 0 ∨ column = 0 then none else Text.offsetAt? text (line - 1) (column - 1)
    match found with
    | some offset => .ok offset
    | none =>
      .error ⟨toString line ++ ":" ++ toString column ++ " is not a position in the file", []⟩
  | _, _, _ => .error ⟨"pass `--offset` or both `--line` and `--column`", []⟩

/-- The causes that an assist failed for. Code that does not parse is a cause of its own. -/
def assistCauses (error : AssistError) : List String :=
  match error with
  | .invalidCode diagnostics => [error.message, Parse.fragmentMessage diagnostics]
  | _ => [error.message]

/-- Reports the errors in a file. -/
def check (file : SourceFile) : Outcome :=
  let diagnostics := file.diagnostics
  let shown := diagnostics.map fun it => it.render .terminal file.path file.text ++ "\n"
  ⟨if diagnostics.isEmpty then 0 else 1, "", String.join shown, none⟩

/-- Lists the assists at a place. -/
def assists (file : SourceFile) (cursor : Cursor) (json : Bool) : Except Failure Outcome := do
  let offset ← cursor.resolve file.text
  let offered := file.assists .default offset
  if json then return .success (Report.assists file.text offered ++ "\n")
  return .success (String.join (offered.map fun it => it.id.name ++ "\t" ++ it.id.label ++ "\n"))

/-- Applies an assist at a place and prints the text, or writes it, or prints the edits. -/
def apply (file : SourceFile) (id : AssistId) (cursor : Cursor) (write : Bool)
    (placeholder : Option String) (json : Bool) : Except Failure Outcome := do
  let offset ← cursor.resolve file.text
  let config : AssistConfig := { AssistConfig.default with
    placeholder := placeholder.map String.toList }
  match file.apply config offset id with
  | .error error =>
    throw ⟨"cannot apply `" ++ id.name ++ "` at offset " ++ toString offset, assistCauses error⟩
  | .ok (change, text) =>
    let stdout :=
      if json then Report.change file.path change ++ "\n"
      else if write then ""
      else String.ofList text
    return ⟨0, stdout, "", if write then some text else none⟩

/-- Carries out a request about a file. -/
def executeOn (request : Request) (file : SourceFile) : Except Failure Outcome :=
  match request with
  | .version => .ok (.success "hereby 0.1.0\n")
  | .help => .ok (.success usage)
  | .check _ => .ok (check file)
  | .assists _ cursor json => assists file cursor json
  | .apply _ id cursor write placeholder json => apply file id cursor write placeholder json

/-- Carries out a request, given what reading its file gave. -/
def execute (request : Request) (read : String → Except ReadError Text) : Outcome :=
  let outcome : Except Failure Outcome :=
    match request.path? with
    | none => executeOn request ⟨"", []⟩
    | some path =>
      match read path with
      | .error error => .error ⟨"failed to read `" ++ path ++ "`", [error.message]⟩
      | .ok text => executeOn request ⟨path, text⟩
  match outcome with
  | .ok outcome => outcome
  | .error failure => .failed failure

/-- Reads arguments and carries out the request in them. -/
def run (arguments : List String) (read : String → Except ReadError Text) : Outcome :=
  match Request.parse? arguments with
  | none => ⟨2, "", usage, none⟩
  | some request => execute request read

end Cli

end PhpAssist

import PhpAssist.Assist
import PhpAssist.Text.Position

/-!
# Sessions

A session holds files and answers questions about them. A file changes when it is set and when
an assist is applied to it, and in no other way. An assist is applied only when the text it gives
is no worse than the text it was given: the number of diagnostics may not grow.

Every answer is made of the text anew, and nothing is stored between two questions but the files.
A parse is a function of the text, so one that was kept says the same as one that is made again;
`Parse.update` tells which of the two is kept. The table of lines is not kept either.

## Main definitions

* `SourceFile`: A path and a text.
* `Session`: Files, numbered from zero in the order in which they were added.
* `SourceFile.resolve`: The edits of an assist.
* `SourceFile.apply`: The edits and the text that they give.
* `Session.apply`: Applies an assist to a file.
-/

namespace PhpAssist

/-- A file: its path and its text. -/
structure SourceFile where
  path : String
  text : Text

namespace SourceFile

/-- The parse of the text of a file. -/
def parse (file : SourceFile) : Parse := Parse.file file.text

/-- What is wrong with a file. -/
def diagnostics (file : SourceFile) : List Diagnostic := file.parse.diagnostics

/-- A cursor in a file. -/
def context (config : AssistConfig) (file : SourceFile) (offset : Nat) : AssistContext :=
  ⟨file.parse, offset, config⟩

/-- The assists offered at an offset. -/
def assists (config : AssistConfig) (file : SourceFile) (offset : Nat) : List Assist :=
  (file.context config offset).assists

/-- The edits of an assist at an offset. The file stays as it is. -/
def resolve (config : AssistConfig) (file : SourceFile) (offset : Nat) (id : AssistId) :
    Except AssistError Change :=
  (file.context config offset).apply id

/-- The edits of an assist and the text they give, provided that it has no more diagnostics than
    the text of the file. -/
def apply (config : AssistConfig) (file : SourceFile) (offset : Nat) (id : AssistId) :
    Except AssistError (Change × Text) := do
  let change ← file.resolve config offset id
  let text := change.apply file.text
  let diagnostics := (Parse.file text).diagnostics
  -- The text is worse than the one it would take the place of.
  if file.diagnostics.length < diagnostics.length then throw (.invalidCode diagnostics)
  return (change, text)

end SourceFile

/-- Files, numbered from zero in the order in which they were added, and what is set. -/
structure Session where
  config : AssistConfig
  files : List SourceFile

namespace Session

/-- A session without files. -/
def empty (config : AssistConfig) : Session := ⟨config, []⟩

/-- The file with a number. -/
def file? (session : Session) (file : Nat) : Option SourceFile := session.files[file]?

/-- Adds a file and gives its number. -/
def add (session : Session) (path : String) (text : Text) : Nat × Session :=
  (session.files.length, { session with files := session.files ++ [⟨path, text⟩] })

/-- Replaces the text of a file. -/
def set (session : Session) (file : Nat) (text : Text) : Session :=
  { session with files := session.files.modify file fun it => { it with text } }

/-- Applies an assist to a file. When that fails, everything stays as it is. -/
def apply (session : Session) (file : Nat) (offset : Nat) (id : AssistId) :
    Option (Except AssistError Change × Session) :=
  (session.file? file).map fun it =>
    match it.apply session.config offset id with
    | .ok (change, text) => (.ok change, session.set file text)
    | .error error => (.error error, session)

end Session

end PhpAssist

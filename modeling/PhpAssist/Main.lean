import PhpAssist.Cli

/-!
# The program

Reads the file that the arguments name, carries out the request and prints what came of it.
-/

open PhpAssist

/-- Reads a file as text. -/
def readText (path : String) : IO (Except Cli.ReadError Text) := do
  try
    let bytes ← IO.FS.readBinFile path
    match String.fromUTF8? bytes with
    | some text => return .ok text.toList
    | none => return .error .notUtf8
  catch error =>
    match error with
    | .noFileOrDirectory .. => return .error .missing
    | .inappropriateType .. => return .error .directory
    | _ => return .error (.other (toString error))

/-- Reads the file that is named, runs the command on it, and writes what the command says is to be
    written. Nothing else is done to the outside world. -/
def main (arguments : List String) : IO UInt32 := do
  let path := ((Cli.Request.parse? arguments).bind Cli.Request.path?)
  let content ← match path with
    | some path => readText path
    | none => pure (.error .missing)
  let outcome := Cli.run arguments fun _ => content
  match path, outcome.written with
  | some path, some text => IO.FS.writeFile path (String.ofList text)
  | _, _ => pure ()
  IO.print outcome.stdout
  IO.eprint outcome.stderr
  return outcome.exit.toUInt32

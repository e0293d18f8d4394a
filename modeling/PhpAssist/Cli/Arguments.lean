import PhpAssist.Assist

/-!
# The arguments of the command line

A command has a name, positional arguments and options. Options may stand anywhere behind the
command, with their value behind them or behind an equals sign, and none of them twice. Whatever
follows a double dash is positional. Arguments are read from left to right: one that makes no
sense ends the reading, and so does the option that asks for help.

## Main definitions

* `Cli.Cursor`: A place in a file, by offset or by line and column.
* `Cli.Request`: What is asked for.
* `Cli.Shape`, `Cli.Shape.read`: The arguments a command takes, and reading them.
* `Cli.Request.parse?`: Reads a request; `none` for arguments that make no sense.
-/

namespace PhpAssist

namespace Cli

/-- A place in a file, by its offset or by its line and column. -/
structure Cursor where
  offset : Option Nat
  line : Option Nat
  column : Option Nat
  deriving DecidableEq

/-- What is asked for. -/
inductive Request where
  | version
  | help
  | check (path : String)
  | assists (path : String) (cursor : Cursor) (json : Bool)
  | apply (path : String) (id : AssistId) (cursor : Cursor) (write : Bool)
      (placeholder : Option String) (json : Bool)
  deriving DecidableEq

/-- The arguments a command takes: options without a value, options with one, and positional
    arguments, with a test for each value and each positional argument. -/
structure Shape where
  flags : List String
  valued : List (String × (String → Bool))
  positionals : List (String → Bool)

/-- Arguments as they were given. -/
structure Given where
  flags : List String
  values : List (String × String)
  positionals : List String

namespace Given

/-- No arguments. -/
def empty : Given := ⟨[], [], []⟩

/-- An option without a value was given. -/
def hasFlag (given : Given) (name : String) : Bool := given.flags.contains name

/-- Help was asked for. -/
def asksHelp (given : Given) : Bool := given.hasFlag "help"

/-- The value that was given for an option. -/
def value? (given : Given) (name : String) : Option String :=
  (given.values.find? fun entry => entry.1 == name).map (·.2)

/-- Adds an option without a value, unless it is there. -/
def addFlag (given : Given) (name : String) : Option Given :=
  if given.hasFlag name then none else some { given with flags := name :: given.flags }

/-- Adds an option with a value, unless it is there. -/
def addValue (given : Given) (name value : String) : Option Given :=
  if (given.value? name).isSome then none
  else some { given with values := (name, value) :: given.values }

end Given

/-- The option that a single letter stands for. -/
def longName : Char → Option String
  | 'v' => some "verbose"
  | 'h' => some "help"
  | 'V' => some "version"
  | _ => none

/-- An argument by its form. -/
inductive Word where
  | separator
  | option (name : String)
  | assignment (name value : String)
  | letters (letters : List Char)
  | plain (text : String)

/-- The form of an argument. A single dash is a plain word. -/
def Word.of (argument : String) : Word :=
  match argument.toList with
  | ['-', '-'] => .separator
  | '-' :: '-' :: rest =>
    match rest.dropWhile (· != '=') with
    | [] => .option (String.ofList rest)
    | _ :: value => .assignment (String.ofList (rest.takeWhile (· != '='))) (String.ofList value)
  | '-' :: c :: rest => .letters (c :: rest)
  | _ => .plain argument

namespace Shape

/-- Adds a plain word, unless there are enough of them or it fails its test. -/
def addPositional (shape : Shape) (given : Given) (word : String) : Option Given :=
  match shape.positionals[given.positionals.length]? with
  | some accepts =>
    if accepts word then some { given with positionals := given.positionals ++ [word] } else none
  | none => none

/-- Adds an option with a value, unless the command has none of that name or the value fails its
    test. -/
def addValue (shape : Shape) (given : Given) (name value : String) : Option Given :=
  match shape.valued.lookup name with
  | some accepts => if accepts value then given.addValue name value else none
  | none => none

/-- Adds options without a value, `none` for one that has no name, up to the one that asks for
    help. -/
def addFlags (shape : Shape) (given : Given) : List (Option String) → Option Given
  | [] => some given
  | name? :: more =>
    if given.asksHelp then some given
    else
      match name?.filter shape.flags.contains with
      | some name => (given.addFlag name).bind fun given => shape.addFlags given more
      | none => none

/-- Reads the arguments of a command. -/
def read (shape : Shape) (given : Given) : List String → Option Given
  | [] => some given
  | argument :: more =>
    -- Nothing that follows the question for help matters any more.
    if given.asksHelp then some given
    else
      match Word.of argument with
      | .separator => more.foldlM shape.addPositional given
      | .assignment name value =>
        (shape.addValue given name value).bind fun given => shape.read given more
      | .letters letters =>
        (shape.addFlags given (letters.map longName)).bind fun given => shape.read given more
      | .plain word => (shape.addPositional given word).bind fun given => shape.read given more
      | .option name =>
        if shape.flags.contains name then
          (given.addFlag name).bind fun given => shape.read given more
        else
          -- A value behind a blank may not look like an option; behind an equals sign it may.
          match more with
          | [] => none
          | value :: more =>
            match Word.of value with
            | .plain value =>
              (shape.addValue given name value).bind fun given => shape.read given more
            | _ => none

end Shape

/-- One more than the greatest number that an option takes: numbers have 32 bits. -/
def numberLimit : Nat := 4294967296

/-- A number below the limit, with a sign if one is written. -/
def parseOffset? (text : String) : Option Nat :=
  let number (digits : List Char) : Option Nat :=
    if !digits.isEmpty && digits.all Char.isDigit then
      some (digits.foldl (fun value c => 10 * value + (c.toNat - '0'.toNat)) 0)
    else none
  match text.toList with
  | '+' :: digits => (number digits).filter (· < numberLimit)
  | '-' :: digits => (number digits).filter (· == 0)
  | digits => (number digits).filter (· < numberLimit)

/-- The number given for an option: nothing when it is missing, a failure when it is not one. -/
def numberOption (given : Given) (name : String) : Option (Option Nat) :=
  match given.value? name with
  | none => some none
  | some text => (parseOffset? text).map some

/-- The place given. A line needs a column and a column a line, and an offset excludes both. -/
def cursor? (given : Given) : Option Cursor := do
  let offset ← numberOption given "offset"
  let line ← numberOption given "line"
  let column ← numberOption given "column"
  if line.isSome != column.isSome then failure
  if offset.isSome && line.isSome then failure
  return ⟨offset, line, column⟩

/-- The options for a place, which have a number each. -/
def cursorOptions : List (String × (String → Bool)) :=
  ["offset", "line", "column"].map fun name => (name, fun value => (parseOffset? value).isSome)

/-- What a command takes. -/
def shape? : String → Option Shape
  | "check" => some ⟨["verbose", "help"], [], [fun _ => true]⟩
  | "assists" => some ⟨["verbose", "help", "json"], cursorOptions, [fun _ => true]⟩
  | "apply" =>
    some
      { flags := ["verbose", "help", "json", "write"]
        valued := ("placeholder", fun _ => true) :: cursorOptions
        positionals := [fun _ => true, fun name => (AssistId.ofName? name).isSome] }
  | _ => none

/-- Whether there is help about some words: about everything, a command, or help itself. -/
def isHelpTopic : List String → Bool
  | [] => true
  | [word] => word == "help" || (shape? word).isSome
  | _ => false

/-- The request that the arguments of a command make. -/
def request? (command : String) (given : Given) : Option Request := do
  match command, given.positionals with
  | "check", [path] => return .check path
  | "assists", [path] => return .assists path (← cursor? given) (given.hasFlag "json")
  | "apply", [path, name] =>
    return .apply path (← AssistId.ofName? name) (← cursor? given) (given.hasFlag "write")
      (given.value? "placeholder") (given.hasFlag "json")
  | _, _ => failure

/-- Reads the name of a command and the arguments behind it. -/
def commandArguments? (command : String) (arguments : List String) : Option Request := do
  if command == "help" then
    if isHelpTopic arguments then return .help else failure
  let given ← (← shape? command).read .empty arguments
  if given.asksHelp then return .help
  request? command given

namespace Request

/-- Reads options in front of the name of a command, given by their names. The first that asks
    for the version or for help decides the request. -/
def leadingOptions? (given : Given) : List (Option String) → Option (Request ⊕ Given)
  | [] => some (.inr given)
  | some "version" :: _ => some (.inl .version)
  | some "help" :: _ => some (.inl .help)
  | some "verbose" :: more => (given.addFlag "verbose").bind fun given => leadingOptions? given more
  | _ => none

/-- The names of the options that stand together in one argument, `none` for a letter that is
    not an option. -/
def optionNames? : Word → Option (List (Option String))
  | .option name => some [some name]
  | .letters letters => some (letters.map longName)
  | _ => none

/-- Reads options in front of the name of a command, and the command. -/
def parseFrom? (given : Given) : List String → Option Request
  | [] => none
  | argument :: more =>
    match optionNames? (Word.of argument) with
    | some names =>
      match leadingOptions? given names with
      | some (.inl request) => some request
      | some (.inr given) => parseFrom? given more
      | none => none
    | none =>
      match Word.of argument with
      | .plain command => commandArguments? command more
      | _ => none

/-- Reads a request. -/
def parse? (arguments : List String) : Option Request := parseFrom? .empty arguments

/-- The file a request is about. -/
def path? : Request → Option String
  | .version | .help => none
  | .check path | .assists path _ _ | .apply path _ _ _ _ _ => some path

end Request

end Cli

end PhpAssist

import PhpAssist.Grammar.Stmt
import PhpAssist.Tree.Builder
import PhpAssist.Tree.Outline

/-!
# Parses

A parse is a tree that holds a whole text, together with what is wrong with the text. Any text
has one. A fragment is a piece of code that is to be put somewhere, and counts only when nothing
is wrong with it.

## Main definitions

* `Parse`: A tree, its diagnostics and whether reading it came to an end.
* `Parse.run`, `Parse.build`: What a rule does with a text, and the tree it makes.
* `Parse.file`: Reads a file.
* `Parse.fragment`: Reads a fragment.
* `Parse.update`: Which of two parses is kept.
* `Parse.dump`: The tree and the diagnostics as text.
-/

namespace PhpAssist

/-- A tree that holds a text, and what is wrong with the text. `finished` is false for a text
    whose parse goes on for ever; its tree says nothing then. -/
structure Parse where
  source : SourceTree
  diagnostics : List Diagnostic
  finished : Bool

namespace Parse

/-- The text that was parsed. -/
def text (parse : Parse) : Text := parse.source.text

/-- The root of the tree. -/
def root (parse : Parse) : Node := parse.source.root

/-- Something is wrong with the text. -/
def hasErrors (parse : Parse) : Bool := !parse.diagnostics.isEmpty

/-- What the rules of the grammar may use, for a number of tokens. No rule calls more than a
    few others without reading a token. -/
def allowance (tokens : Nat) : Nat := 16 * (tokens + 1)

/-- The parse of a text by a rule, when the rule has done its work. -/
def run (rule : Nat → Grammar.State → Grammar.State) (text : Text) : Grammar.State :=
  let lexing := Lexing.of text
  rule (allowance lexing.tokens.length) (Grammar.State.begin lexing)

/-- The tree of a text that a rule makes, built from the log that it leaves. -/
def build (rule : Nat → Grammar.State → Grammar.State) (text : Text) :
    Except Builder.Misuse SourceTree :=
  (run rule text).log.build text

/-- Reads a text by a rule. Diagnostics of tokens and of the rule are put in order. A parse that
    goes on for ever leaves no tree, and an empty root stands for it. -/
def withRule (rule : Nat → Grammar.State → Grammar.State) (text : Text) : Parse :=
  let lexing := Lexing.of text
  let state := run rule text
  { source := (build rule text).toOption.getD ⟨text, .root .sourceFile [.token lexing.last]⟩
    diagnostics := Diagnostic.inOrder (state.diagnostics.reverse ++ lexing.errors)
    finished := !state.stalled }

/-- Reads a file. -/
def file (text : Text) : Parse := Parse.withRule Grammar.sourceFile text

/-- Reads statements written without an opening tag; the diagnostics if something is wrong. -/
def fragment (text : Text) : Except (List Diagnostic) Parse :=
  let parse := Parse.withRule Grammar.fragment text
  if parse.hasErrors then .error parse.diagnostics else .ok parse

/-- What is said about a fragment that did not parse. -/
def fragmentMessage (diagnostics : List Diagnostic) : String :=
  "fragment does not parse: " ++ ((diagnostics.head?.map (·.message)).getD "")

/-- What is stored when a parse is made anew, and whether that is a change: a stored parse of the
    same text is kept. -/
def update (stored new : Parse) : Parse × Bool :=
  if stored.text = new.text then (stored, false) else (new, true)

/-- The tree, and behind it the diagnostics, one to a line. -/
def dump (parse : Parse) : String :=
  let line (diagnostic : Diagnostic) : String :=
    "  " ++ diagnostic.span.display ++ " " ++ diagnostic.message ++ "\n"
  if parse.hasErrors then
    parse.root.dump ++ "Errors:\n" ++ String.join (parse.diagnostics.map line)
  else parse.root.dump

end Parse

end PhpAssist

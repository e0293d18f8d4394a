import PhpAssist.Assist.Concat
import PhpAssist.Assist.Ternary

/-!
# Assists

An assist changes the code around a cursor without changing what it does. Which assists are
offered can be asked without computing any edit.

## Main definitions

* `AssistId`: The assists.
* `Assist`: An assist offered at a cursor, with the expression it is about.
* `AssistContext.assists`: The assists offered at a cursor.
* `AssistContext.apply`: The edits of an assist.
* `AssistContext.sweep`: What is offered at every offset of a text.
-/

namespace PhpAssist

/-- The assists. -/
inductive AssistId where
  | ternaryToIfElse
  | concatToHeredoc
  deriving DecidableEq

namespace AssistId

/-- The assists in the order in which they are offered. -/
def all : List AssistId := [.ternaryToIfElse, .concatToHeredoc]

/-- The name by which an assist is called. -/
def name : AssistId → String
  | .ternaryToIfElse => "ternary-to-if-else"
  | .concatToHeredoc => "concat-to-heredoc"

/-- What an assist does, for people. -/
def label : AssistId → String
  | .ternaryToIfElse => "Convert ternary to if/else"
  | .concatToHeredoc => "Convert concatenation to heredoc"

/-- The assist with a name. -/
def ofName? (name : String) : Option AssistId := all.find? fun id => id.name == name

/-- What is said about a name that is none of an assist. -/
def unknownMessage (name : String) : String := "unknown assist `" ++ name ++ "`"

end AssistId

/-- An assist offered at a cursor, and where the expression stands that it is about. -/
structure Assist where
  id : AssistId
  target : Span
  deriving DecidableEq

namespace AssistContext

/-- Where an assist is offered, if it is. -/
def target? (context : AssistContext) : AssistId → Option Span
  | .ternaryToIfElse => TernaryAssignment.target? context
  | .concatToHeredoc => ConcatChain.target? context

/-- Whether an assist is offered at the cursor. -/
def isApplicable (context : AssistContext) (id : AssistId) : Bool := (context.target? id).isSome

/-- The assists offered at the cursor. -/
def assists (context : AssistContext) : List Assist :=
  AssistId.all.filterMap fun id => (context.target? id).map fun target => ⟨id, target⟩

/-- The edits of an assist at the cursor. -/
def apply (context : AssistContext) : AssistId → Except AssistError Change
  | .ternaryToIfElse => TernaryAssignment.change context
  | .concatToHeredoc => ConcatChain.change context

/-- The assists offered at a run of offsets, from the first to the last of them. -/
structure Run where
  first : Nat
  last : Nat
  assists : List Assist

/-- Adds the offset behind the last run to the runs, the latest of which comes first. -/
def extendRuns (runs : List Run) (offset : Nat) (assists : List Assist) : List Run :=
  match runs with
  | run :: more =>
    if run.assists = assists then { run with last := offset } :: more
    else ⟨offset, offset, assists⟩ :: run :: more
  | [] => [⟨offset, offset, assists⟩]

/-- What is offered at every offset from the start to one past the end, runs of equal answers
    put together. -/
def sweep (parse : Parse) (config : AssistConfig) : List Run :=
  let step (runs : List Run) (offset : Nat) : List Run :=
    extendRuns runs offset (assists ⟨parse, offset, config⟩)
  ((List.range (parse.text.size + 2)).foldl step []).reverse

end AssistContext

end PhpAssist

import PhpAssist.Kind.Set
import PhpAssist.Token.Lexer
import PhpAssist.Tree.Log

/-!
# The state of a parse

A parse reads tokens from left to right and keeps a log of them and of the nodes they belong to.
It never fails: what does not fit is reported and put into an error node, so that every token ends
up in the tree.

The rules of the grammar call one another, and how deep they do is bounded by the number of
tokens. Each rule is therefore given an allowance that shrinks with every call. One rule can go
on without reading anything and uses its allowance up whatever it is; a state that saw this
happen is `stalled`, and the parse it belongs to does not end.

## Main definitions

* `State`: The tokens ahead, the log, the diagnostics and whether the parse stalled.
* `State.kind`, `State.isAt`, `State.isAtOneOf`, `State.isAtText`: Looking ahead.
* `State.bump`, `State.skip`, `State.expect`: Reading a token.
* `State.report`, `State.reject`: Diagnostics.
* `State.start`, `State.precede`, `State.complete`: Nodes.
-/

namespace PhpAssist

namespace Grammar

/-- A parse under way. `ahead` are the tokens that were not read yet, `last` the one that stands
    for the end of the text, `offset` where the tokens ahead begin, and `lastEnd` where the text
    of the token read last ends. The latest diagnostic comes first. -/
structure State where
  ahead : List Token
  last : Token
  offset : Nat
  lastEnd : Nat
  log : Log
  diagnostics : List Diagnostic
  stalled : Bool

namespace State

/-- A parse that has read nothing. -/
def begin (lexing : Lexing) : State :=
  ⟨lexing.tokens, lexing.last, 0, 0, .empty, [], false⟩

/-- The token ahead, which is the one for the end when all others were read. -/
def next (state : State) : Token := state.ahead.headD state.last

/-- The kind of the token ahead. -/
def kind (state : State) : Kind :=
  match state.ahead with
  | [] => .endOfFile
  | token :: _ => token.kind

/-- Where the token ahead stands. -/
def span (state : State) : Span := state.next.spanAt state.offset

/-- The token ahead is of a kind. -/
def isAt (state : State) (kind : Kind) : Bool := state.kind == kind

/-- The token ahead is of one of some kinds. -/
def isAtOneOf (state : State) (kinds : KindSet) : Bool := kinds.contains state.kind

/-- Whether the token ahead has a kind and a spelling, in any mixture of case. -/
def isAtText (state : State) (kind : Kind) (word : String) : Bool :=
  state.isAt kind && Text.lower state.next.text == Text.lower word.toList

/-- Reads the token ahead. The end of the text stays ahead. -/
def bump (state : State) : State :=
  match state.ahead with
  | [] => state
  | token :: more =>
    { state with
      ahead := more
      offset := state.offset + token.size
      lastEnd := (token.spanAt state.offset).stop
      log := state.log.push (.token token) }

/-- Reads the token ahead if it is of a kind. -/
def skip (state : State) (kind : Kind) : State :=
  if state.isAt kind then state.bump else state

/-- Reports something about the token ahead. -/
def report (state : State) (message : String) : State :=
  { state with diagnostics := ⟨message, state.span⟩ :: state.diagnostics }

/-- Reads a token of a kind, or reports that it is missing behind the last one that was read. -/
def expect (state : State) (kind : Kind) : State :=
  if state.isAt kind then state.bump
  else
    { state with
      diagnostics := ⟨"expected " ++ kind.describe, .empty state.lastEnd⟩ :: state.diagnostics }

/-- Reads the end of the text, which nothing may stand before. -/
def readEnd (state : State) : State :=
  match state.ahead with
  | [] => { state with log := state.log.push (.token state.last) }
  | _ :: _ => { state with log := { state.log with broken := true } }

/-- The marker of a node that starts here. -/
def mark (state : State) : Marker := state.log.mark

/-- Starts a node. -/
def start (state : State) : State := { state with log := state.log.start }

/-- Starts a node around one that was completed. -/
def precede (state : State) (completed : Completed) : State :=
  { state with log := state.log.precede completed }

/-- Completes the node that started at a marker. -/
def close (state : State) (start : Marker) (kind : Kind) : State :=
  { state with log := state.log.complete start kind }

/-- Completes a node and keeps where it started. -/
def complete (state : State) (start : Marker) (kind : Kind) : Option Completed × State :=
  (some ⟨start, kind⟩, state.close start kind)

/-- Reports the token ahead and puts it into an error node. -/
def reject (state : State) (message : String) : State :=
  (state.start.report message).bump.close state.mark .error

/-- Reports the token ahead, and puts it into an error node unless it is one that a rule further
    out waits for. -/
def rejectUnless (state : State) (message : String) (awaited : KindSet) : State :=
  if state.isAtOneOf awaited || state.isAt .rightBrace || state.isAt .endOfFile then
    state.report message
  else state.reject message

/-- Reads one token into a node of its own. -/
def leaf (state : State) (kind : Kind) : Option Completed × State :=
  state.start.bump.complete state.mark kind

/-- A state whose rule was called with nothing left of its allowance. -/
def stall (state : State) : State := { state with stalled := true }

end State

end Grammar

end PhpAssist

import PhpAssist.Tree.Builder

/-!
# The log of a parse

A parse does not grow its tree while it reads. It keeps a log of what happened, a node started, a
token was read, the node started last is finished, and the tree is built from the log when the
text has ended.

What a node will be is not known when it starts, so its start is noted without a kind, and
completing the node supplies it. An expression is often known to be the left operand of an
operator only after it has been read. The node around it is then started behind it, and a link
from the start of the operand leads forward to the start of that node. Links may follow one
another, as deep as operands nest to the left.

Replaying a log turns it into steps for a `Builder`. At a start the links are followed first, and
the nodes they lead to are started in front of it, the last one first. A start that a link led to
has had its turn then and is passed over later.

## Main definitions

* `Event`: What can be noted.
* `Marker`, `Completed`: Where a node started, and a node that was completed.
* `Log`: What was noted so far.
* `Log.start`, `Log.complete`, `Log.precede`: Starting and completing nodes.
* `Event.follow`: Follows a link.
* `Event.replay`: The steps of a log.
* `Log.build`: The tree of a log.
-/

namespace PhpAssist

/-- What a log notes: a node started, a token was read, the node started last is finished. The
    start of a node that another one was put around links to the start of that one, by the number
    of events between the two. A start without a kind is noted as a `tombstone`. -/
inductive Event where
  | start (kind : Kind) (forward : Option Nat)
  | token (token : Token)
  | finish

/-- Where a node started: how many events were noted before. -/
structure Marker where
  position : Nat
  deriving DecidableEq

/-- A node that was completed: where it started and what it became. -/
structure Completed where
  mark : Marker
  kind : Kind
  deriving DecidableEq

/-- A log, the latest event first. It is broken when a marker was used that stands at no start. -/
structure Log where
  latest : List Event
  broken : Bool

namespace Event

/-- A start without a kind: its node is not completed yet, or has had its turn. -/
def unmarked : Event := .start .tombstone none

/-- Follows a link over a number of events: the kinds of the starts that it and the links behind
    it lead to, and the events with these starts undone. -/
def follow : Nat → List Event → Except Builder.Misuse (List Kind × List Event)
  | _, [] => .error .brokenLink
  | between + 1, event :: rest => do
    let (kinds, rest) ← follow between rest
    return (kinds, event :: rest)
  | 0, .start kind (some between) :: rest => do
    let (kinds, rest) ← follow between rest
    return (kind :: kinds, unmarked :: rest)
  | 0, .start kind none :: rest => .ok ([kind], unmarked :: rest)
  | 0, _ :: _ => .error .brokenLink

/-- Follows a link if there is one. -/
def followFrom (forward : Option Nat) (rest : List Event) :
    Except Builder.Misuse (List Kind × List Event) :=
  match forward with
  | some between => follow between rest
  | none => .ok ([], rest)

/-- The step that takes a token with its trivia. -/
def tokenStep (tok : Token) : Builder.Step :=
  let sizes (trivia : List Trivia) : List Builder.TriviaSize :=
    trivia.map fun piece => (piece.kind, Text.size piece.text)
  .token (sizes tok.leading) tok.kind (Text.size tok.text) (sizes tok.trailing)

/-- The steps that start nodes of some kinds, the first of them innermost. A node that never got
    a kind is not started. -/
def startSteps (kinds : List Kind) : List Builder.Step :=
  ((kinds.filter (· != .tombstone)).reverse).map .start

theorem length_follow {between : Nat} {events rest : List Event} {kinds : List Kind}
    (h : follow between events = .ok (kinds, rest)) : rest.length = events.length := by
  fun_induction follow between events generalizing kinds rest with
  | case1 => exact absurd h (by simp only [reduceCtorEq, not_false_eq_true])
  | case2 between event more ih =>
    cases hmore : follow between more with
    | error cause =>
      rw [hmore] at h
      exact absurd h (by simp only [bind, Except.bind, reduceCtorEq, not_false_eq_true])
    | ok found =>
      rw [hmore] at h
      injection h with h
      injection h with _ h
      rw [← h, List.length_cons, List.length_cons, ih hmore]
  | case3 kind between more ih =>
    cases hmore : follow between more with
    | error cause =>
      rw [hmore] at h
      exact absurd h (by simp only [bind, Except.bind, reduceCtorEq, not_false_eq_true])
    | ok found =>
      rw [hmore] at h
      injection h with h
      injection h with _ h
      rw [← h, List.length_cons, List.length_cons, ih hmore]
  | case4 kind more =>
    injection h with h
    injection h with _ h
    rw [← h, List.length_cons, List.length_cons]
  | case5 => exact absurd h (by simp only [reduceCtorEq, not_false_eq_true])

theorem length_followFrom {forward : Option Nat} {events rest : List Event} {kinds : List Kind}
    (h : followFrom forward events = .ok (kinds, rest)) : rest.length = events.length := by
  cases forward with
  | none =>
    injection h with h
    injection h with _ h
    rw [← h]
  | some between => exact length_follow h

/-- The steps of a log. -/
def replay : List Event → Except Builder.Misuse (List Builder.Step)
  | [] => .ok []
  | .token tok :: rest => do return tokenStep tok :: (← replay rest)
  | .finish :: rest => do return .finish :: (← replay rest)
  | .start kind forward :: rest =>
    if kind = .tombstone then replay rest
    else
      match _h : followFrom forward rest with
      | .error misuse => .error misuse
      | .ok (kinds, rest) => do return startSteps (kind :: kinds) ++ (← replay rest)
termination_by events => events.length
decreasing_by
  · exact Nat.lt_succ_self _
  · exact Nat.lt_succ_self _
  · exact Nat.lt_succ_self _
  · exact Nat.lt_succ_of_le (Nat.le_of_eq (length_followFrom _h))

end Event

namespace Log

/-- A log of nothing. -/
def empty : Log := ⟨[], false⟩

/-- The events in the order in which they were noted. -/
def events (log : Log) : List Event := log.latest.reverse

/-- The marker of a node that starts now. -/
def mark (log : Log) : Marker := ⟨log.latest.length⟩

/-- Notes an event. -/
def push (log : Log) (event : Event) : Log := { log with latest := event :: log.latest }

/-- Notes that a node starts. -/
def start (log : Log) : Log := log.push .unmarked

/-- Changes the start at a marker. -/
def amend (log : Log) (marker : Marker) (change : Kind → Option Nat → Event) : Log :=
  -- The latest event comes first, so places are counted from the other end.
  let index := log.latest.length - (marker.position + 1)
  match log.latest[index]? with
  | some (.start kind forward) =>
    if marker.position < log.latest.length then
      { log with latest := log.latest.set index (change kind forward) }
    else { log with broken := true }
  | _ => { log with broken := true }

/-- Gives the node that started at a marker its kind and finishes it. -/
def complete (log : Log) (marker : Marker) (kind : Kind) : Log :=
  (log.amend marker fun _ forward => .start kind forward).push .finish

/-- Starts a node around one that was completed. -/
def precede (log : Log) (completed : Completed) : Log :=
  let between := log.latest.length - (completed.mark.position + 1)
  log.start.amend completed.mark fun kind _ => .start kind (some between)

/-- The tree over a text that a log tells of. -/
def build (text : Text) (log : Log) : Except Builder.Misuse SourceTree :=
  if log.broken then .error .misplacedMarker
  else do Builder.run text (← Event.replay log.events)

end Log

end PhpAssist

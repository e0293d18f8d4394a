import Mathlib.Data.List.Induction
import PhpAssist.Proofs.Histories
import PhpAssist.Proofs.Reading

/-!
# The logs of histories

The log changes behind its end, too. Completing a node supplies the kind at its start, and starting
a node around another one links the start of that one forward, so that no event is settled when it
is noted. What the log says in the end is told from the whole history instead: `eventAt` knows all
that is going to be done with the node that an operation starts.

The log after some of the operations says what `eventAt` says of these alone, and one more operation
preserves this. That no marker is misplaced on the way takes a tidy history.

## Main definitions

* `History.kindOf`, `History.linkOf`: What is noted at the start of a node.
* `History.events`: What the operations leave in the log.

## Theorems

* `History.events_concat`, `History.events_concat_at`: The events with one more operation.
* `History.amend_events`: Changing the start of a node.
* `Tidy.log_eq`: The log of a history.
-/

namespace PhpAssist

namespace Log

/-- A row of numbers cut in two. -/
theorem range'_cut {first middle last : Nat} (hle : first ≤ middle) (hle' : middle ≤ last) :
    List.range' first (last - first) =
      List.range' first (middle - first) ++ List.range' middle (last - middle) := by
  have hrange := @List.range'_append_1 first (middle - first) (last - middle)
  rw [show first + (middle - first) = middle by omega,
    show middle - first + (last - middle) = last - first by omega] at hrange
  exact hrange.symm

namespace Operation

/-- The kind with which an operation completes the node of a marker. -/
def kindFor? (marker : Marker) : Operation → Option Kind
  | .complete completed kind => if completed = marker then some kind else none
  | _ => none

/-- Whether an operation starts a node around the one of a marker. -/
def isAround (marker : Marker) : Operation → Bool
  | .precede completed => completed.mark == marker
  | _ => false

theorem kindFor?_eq_some {op : Operation} {marker : Marker} {kind : Kind}
    (h : op.kindFor? marker = some kind) : op = .complete marker kind := by
  cases op with
  | complete completed kind' =>
    rw [kindFor?, Option.ite_none_right_eq_some, Option.some.injEq] at h
    rw [h.1, h.2]
  | _ => exact absurd h.symm (Option.some_ne_none _)

theorem isAround_eq_true {op : Operation} {marker : Marker} (h : op.isAround marker = true) :
    ∃ completed, op = .precede completed ∧ completed.mark = marker := by
  cases op with
  | precede completed => exact ⟨completed, rfl, eq_of_beq h⟩
  | _ => exact absurd h Bool.false_ne_true

end Operation

namespace History

variable {history : History}

/-! ## The events of a history -/

/-- The kind that the node of a marker is completed with. -/
def kindOf (history : History) (marker : Marker) : Kind :=
  (history.findSome? (Operation.kindFor? marker)).getD .tombstone

/-- The link from the start of a node to the start of the node around it, by the number of events
    between the two. -/
def linkOf (history : History) (marker : Marker) : Option Nat :=
  (history.findIdx? (Operation.isAround marker)).map (· - (marker.position + 1))

/-- What the log says of an operation when all others are done too. -/
def eventAt (history : History) (time : Nat) : Event :=
  match history[time]? with
  | some (.token tok) => .token tok
  | some (.complete _ _) => .finish
  | _ => .start (history.kindOf ⟨time⟩) (history.linkOf ⟨time⟩)

/-- The events that the operations leave in the log. -/
def events (history : History) : List Event := (List.range history.length).map history.eventAt

/-- The events of a history from a time on. -/
def eventsFrom (history : History) (time : Nat) : List Event :=
  (List.range' time (history.length - time)).map history.eventAt

theorem length_events (history : History) : history.events.length = history.length := by
  rw [events, List.length_map, List.length_range]

theorem eventAt_starts (marker : Marker) (h : history.Starts marker) :
    history.eventAt marker.position = .start (history.kindOf marker) (history.linkOf marker) := by
  rcases h with ⟨op, hat, hop⟩
  rw [eventAt, hat]
  rcases op with _ | tok | ⟨mark, kind⟩ | completed
  · rfl
  · exact absurd hop Bool.false_ne_true
  · exact absurd hop Bool.false_ne_true
  · rfl

theorem events_eq_append {time : Nat} (hlt : time < history.length) :
    history.events = (List.range time).map history.eventAt ++
      history.eventAt time :: history.eventsFrom (time + 1) := by
  have hrange : List.range history.length = List.range time ++
      time :: List.range' (time + 1) (history.length - (time + 1)) := by
    have hcut := range'_cut (Nat.zero_le time) (Nat.le_of_lt hlt)
    rw [Nat.sub_zero, Nat.sub_zero, show history.length - time = history.length - (time + 1) + 1 by
      omega, List.range'_succ] at hcut
    rw [List.range_eq_range', List.range_eq_range', hcut]
  rw [events, hrange, List.map_append, List.map_cons, eventsFrom]

theorem findSome?_kindFor? {marker : Marker}
    (h : ∀ time kind, ¬ history.CompletesAt time marker kind) :
    history.findSome? (Operation.kindFor? marker) = none := by
  refine List.findSome?_eq_none_iff.mpr fun op hmem => ?_
  rcases hop : op.kindFor? marker with _ | kind
  · rfl
  · rcases List.mem_iff_getElem?.mp hmem with ⟨time, hat⟩
    rw [Operation.kindFor?_eq_some hop] at hat
    exact absurd hat (h time kind)

theorem linkOf_eq_none {marker : Marker}
    (h : ∀ time completed, history.PrecedesAt time completed → completed.mark ≠ marker) :
    history.linkOf marker = none := by
  rw [linkOf, Option.map_eq_none_iff, List.findIdx?_eq_none_iff]
  intro op hmem
  rw [Bool.eq_false_iff]
  intro hop
  rcases Operation.isAround_eq_true hop with ⟨completed, rfl, hmark⟩
  rcases List.mem_iff_getElem?.mp hmem with ⟨time, hat⟩
  exact h time completed hat hmark

/-! ## One more operation -/

theorem getElem?_of_front {front rest : History} (hsplit : front ++ rest = history) {time : Nat}
    {op : Operation} (hat : front[time]? = some op) :
    history[time]? = some op ∧ time < front.length := by
  have hlt := (List.getElem?_eq_some_iff.mp hat).1
  rw [← hsplit, List.getElem?_append_left hlt]
  exact ⟨hat, hlt⟩

theorem starts_concat {marker : Marker} (op : Operation) (h : history.Starts marker) :
    Starts (history ++ [op]) marker := by
  rcases h with ⟨op', hat, hstarts⟩
  have hlt := (List.getElem?_eq_some_iff.mp hat).1
  exact ⟨op', (List.getElem?_append_left hlt).trans hat, hstarts⟩

theorem kindOf_concat (history : History) (op : Operation) (marker : Marker) :
    History.kindOf (history ++ [op]) marker =
      ((history.findSome? (Operation.kindFor? marker)).or (op.kindFor? marker)).getD
        .tombstone := by
  rw [kindOf, List.findSome?_append, List.findSome?_singleton]

theorem linkOf_concat (history : History) (op : Operation) (marker : Marker) :
    History.linkOf (history ++ [op]) marker =
      (history.linkOf marker).or
        (if op.isAround marker = true then some (history.length - (marker.position + 1))
          else none) := by
  rw [linkOf, List.findIdx?_append, linkOf, List.findIdx?_singleton]
  -- A link that was there before stays.
  cases history.findIdx? (Operation.isAround marker) with
  | some time => rfl
  | none =>
    by_cases hop : op.isAround marker = true
    · simp only [hop, if_true, Option.map_some, Option.map_none, Option.none_or, Nat.zero_add]
    · simp only [hop, Option.map_none, Option.none_or, if_false, Bool.false_eq_true]

/-- An operation leaves the event of an earlier one as it is unless it does something with the
    node that was started there. -/
theorem eventAt_concat {op : Operation} {time : Nat} (hlt : time < history.length)
    (hkind : op.kindFor? ⟨time⟩ = none) (haround : op.isAround ⟨time⟩ = false) :
    eventAt (history ++ [op]) time = history.eventAt time := by
  rw [eventAt, eventAt, List.getElem?_append_left hlt, kindOf_concat, linkOf_concat, hkind, haround,
    Option.or_none, if_neg Bool.false_ne_true, Option.or_none, kindOf]

/-- The start that is noted for a node, as long as nothing was done with its marker. -/
theorem eventAt_concat_starts {op : Operation} (hop : op.starts = true)
    (hkind : ∀ time kind, ¬ CompletesAt (history ++ [op]) time ⟨history.length⟩ kind)
    (hlink : ∀ time completed, PrecedesAt (history ++ [op]) time completed →
      completed.mark ≠ ⟨history.length⟩) :
    eventAt (history ++ [op]) history.length = .unmarked := by
  have hstarts : Starts (history ++ [op]) ⟨history.length⟩ :=
    ⟨op, List.getElem?_concat_length, hop⟩
  have hevent := eventAt_starts ⟨history.length⟩ hstarts
  rw [hevent, kindOf, findSome?_kindFor? hkind, linkOf_eq_none hlink]
  rfl

theorem events_concat {op : Operation} (hkind : ∀ marker, op.kindFor? marker = none)
    (haround : ∀ marker, op.isAround marker = false) :
    events (history ++ [op]) = history.events ++ [eventAt (history ++ [op]) history.length] := by
  rw [events, List.length_append, List.length_singleton, List.range_succ, List.map_append,
    List.map_singleton, events]
  congr 1
  refine List.map_congr_left fun time htime => ?_
  exact eventAt_concat (List.mem_range.mp htime) (hkind _) (haround _)

/-- An operation that does something with one node changes the event at the start of that node. -/
theorem events_concat_at {op : Operation} {marker : Marker}
    (hlt : marker.position < history.length)
    (hkind : ∀ other, other ≠ marker → op.kindFor? other = none)
    (haround : ∀ other, other ≠ marker → op.isAround other = false) :
    events (history ++ [op]) = (List.range marker.position).map history.eventAt ++
      eventAt (history ++ [op]) marker.position ::
        (history.eventsFrom (marker.position + 1) ++
          [eventAt (history ++ [op]) history.length]) := by
  have hlength : marker.position < (history ++ [op]).length := by
    rw [List.length_append]
    omega
  have hother {time : Nat} (htime : time ≠ marker.position) (hless : time < history.length) :
      eventAt (history ++ [op]) time = history.eventAt time :=
    eventAt_concat hless (hkind ⟨time⟩ fun heq => htime (congrArg Marker.position heq))
      (haround ⟨time⟩ fun heq => htime (congrArg Marker.position heq))
  have hcount : (history ++ [op]).length - (marker.position + 1) =
      history.length - (marker.position + 1) + 1 := by
    rw [List.length_append, List.length_singleton]
    omega
  have hlast : marker.position + 1 + (history.length - (marker.position + 1)) =
      history.length := by
    omega
  rw [events_eq_append hlength, eventsFrom, eventsFrom, hcount, List.range'_1_concat, hlast,
    List.map_append, List.map_singleton]
  -- The events before the start of the node and those behind it stay as they are.
  congr 1
  · refine List.map_congr_left fun time htime => ?_
    have htime := List.mem_range.mp htime
    exact hother (by omega) (by omega)
  · congr 2
    refine List.map_congr_left fun time htime => ?_
    have htime := List.mem_range'_1.mp htime
    exact hother (by omega) (by omega)

/-! ## What the log says -/

/-- Changing the start of a node finds it in the log of a history. -/
theorem amend_events {marker : Marker} (hstarts : history.Starts marker)
    (change : Kind → Option Nat → Event) (more : List Event) :
    (empty.extend (history.events ++ more)).amend marker change =
      empty.extend ((List.range marker.position).map history.eventAt ++
        change (history.kindOf marker) (history.linkOf marker) ::
          (history.eventsFrom (marker.position + 1) ++ more)) := by
  have hposition : marker.position =
      empty.mark.position + ((List.range marker.position).map history.eventAt).length := by
    rw [List.length_map, List.length_range]
    exact (Nat.zero_add _).symm
  rw [events_eq_append (position_lt hstarts), eventAt_starts marker hstarts, List.append_assoc,
    List.cons_append]
  exact amend_extend empty change hposition

theorem perform_token (tok : Token) :
    (empty.extend history.events).perform (.token tok) =
      empty.extend (events (history ++ [Operation.token tok])) := by
  have hlast : (history ++ [Operation.token tok])[history.length]? = some (.token tok) :=
    List.getElem?_concat_length
  rw [events_concat (fun _ => rfl) (fun _ => rfl), eventAt, hlast, perform, push_eq_extend,
    extend_extend]

theorem perform_start (hfresh : eventAt (history ++ [Operation.start]) history.length = .unmarked) :
    (empty.extend history.events).perform .start =
      empty.extend (events (history ++ [Operation.start])) := by
  rw [events_concat (fun _ => rfl) (fun _ => rfl), hfresh, perform, start, push_eq_extend,
    extend_extend]

theorem perform_complete {marker : Marker} {kind : Kind} (hstarts : history.Starts marker)
    (hfresh : ∀ time kind', ¬ history.CompletesAt time marker kind') :
    (empty.extend history.events).perform (.complete marker kind) =
      empty.extend (events (history ++ [Operation.complete marker kind])) := by
  have hlast : eventAt (history ++ [Operation.complete marker kind]) history.length = .finish := by
    rw [eventAt, List.getElem?_concat_length]
  have hevent : eventAt (history ++ [Operation.complete marker kind]) marker.position =
      .start kind (history.linkOf marker) := by
    have hkind : (Operation.complete marker kind).kindFor? marker = some kind := if_pos rfl
    have haround : ¬ (Operation.complete marker kind).isAround marker = true := Bool.false_ne_true
    rw [eventAt_starts marker (starts_concat _ hstarts), kindOf_concat, linkOf_concat,
      findSome?_kindFor? hfresh, hkind, if_neg haround, Option.none_or, Option.getD_some,
      Option.or_none]
  have hother (other : Marker) (hne : other ≠ marker) :
      (Operation.complete marker kind).kindFor? other = none :=
    if_neg fun heq => hne heq.symm
  -- The start that was left open is the one event that changes.
  have hamend := amend_events hstarts (fun _ forward => .start kind forward) []
  rw [List.append_nil, List.append_nil] at hamend
  rw [events_concat_at (position_lt hstarts) hother (fun _ _ => rfl), hevent, hlast, perform,
    complete, hamend, push_eq_extend, extend_extend, List.append_assoc, List.cons_append]

theorem perform_precede {completed : Completed} (hstarts : history.Starts completed.mark)
    (hfresh : ∀ time completed', history.PrecedesAt time completed' →
      completed'.mark ≠ completed.mark)
    (hunmarked : eventAt (history ++ [Operation.precede completed]) history.length = .unmarked) :
    (empty.extend history.events).perform (.precede completed) =
      empty.extend (events (history ++ [Operation.precede completed])) := by
  have hevent : eventAt (history ++ [Operation.precede completed]) completed.mark.position =
      .start (history.kindOf completed.mark)
        (some (history.length - (completed.mark.position + 1))) := by
    have hkind : (Operation.precede completed).kindFor? completed.mark = none := rfl
    have haround : (Operation.precede completed).isAround completed.mark = true :=
      beq_self_eq_true _
    rw [eventAt_starts completed.mark (starts_concat _ hstarts), kindOf_concat, linkOf_concat,
      linkOf_eq_none hfresh, hkind, if_pos haround, Option.none_or, Option.or_none, kindOf]
  have hother (other : Marker) (hne : other ≠ completed.mark) :
      (Operation.precede completed).isAround other = false :=
    beq_eq_false_iff_ne.mpr fun heq => hne heq.symm
  -- The link reaches from the start of the node to the end of the log.
  have hlength : (empty.extend history.events).latest.length = history.length := by
    rw [extend, empty, List.append_nil, List.length_reverse, length_events]
  rw [events_concat_at (position_lt hstarts) (fun _ _ => rfl) hother, hevent, hunmarked, perform,
    precede, start, push_eq_extend, extend_extend, hlength, amend_events hstarts]

namespace Tidy

variable (h : history.Tidy)
include h

/-- When a marker is handed out, nothing was done with it yet. -/
theorem eventAt_fresh {front rest : History} {op : Operation}
    (hsplit : (front ++ [op]) ++ rest = history) (hop : op.starts = true) :
    eventAt (front ++ [op]) front.length = .unmarked := by
  have hlength : (front ++ [op]).length = front.length + 1 := by
    rw [List.length_append, List.length_singleton]
  -- What is done with a marker is done later than it is handed out, and nothing is later yet.
  refine eventAt_concat_starts hop (fun time kind hcompletes => ?_)
    fun time completed hprecedes hmark => ?_
  · rcases getElem?_of_front hsplit hcompletes with ⟨hat, hlt⟩
    have hless := (h.started _ _ _ hat).2
    dsimp only at hless
    omega
  · rcases getElem?_of_front hsplit hprecedes with ⟨hat, hlt⟩
    have hless := (h.starts_of_precedes hat).2
    rw [hmark] at hless
    dsimp only at hless
    omega

/-- The log of the first operations, when the rest is still to come. -/
theorem log_front {front rest : History} (hsplit : front ++ rest = history) :
    log front = empty.extend (events front) := by
  induction front using List.reverseRecOn generalizing rest with
  | nil => rfl
  | append_singleton front op ih =>
    have hbefore : front ++ ([op] ++ rest) = history := by rw [← List.append_assoc, hsplit]
    have hop : history[front.length]? = some op :=
      (getElem?_of_front hsplit List.getElem?_concat_length).1
    have hstarts {marker : Marker} (hstarts : history.Starts marker)
        (hlt : marker.position < front.length) : Starts front marker := by
      rcases hstarts with ⟨op', hat, hop'⟩
      rw [← hbefore, List.getElem?_append_left hlt] at hat
      exact ⟨op', hat, hop'⟩
    -- That nothing is done twice is known of the whole history and so of its front.
    have hstep : log (front ++ [op]) = (log front).perform op := List.foldl_append ..
    rw [hstep, ih hbefore]
    cases op with
    | token tok => exact perform_token tok
    | start => exact perform_start (h.eventAt_fresh hsplit rfl)
    | complete marker kind =>
      rcases h.started _ _ _ hop with ⟨hmarker, hlt⟩
      refine perform_complete (hstarts hmarker hlt) fun time kind' hcompletes => ?_
      rcases getElem?_of_front hbefore hcompletes with ⟨hat, hless⟩
      have htime := h.once _ _ _ _ _ hat hop
      omega
    | precede completed =>
      rcases h.starts_of_precedes hop with ⟨hmarker, hlt⟩
      refine perform_precede (hstarts hmarker hlt) (fun time completed' hprecedes hmark => ?_)
        (h.eventAt_fresh hsplit rfl)
      rcases getElem?_of_front hbefore hprecedes with ⟨hat, hless⟩
      have htime := h.precededOnce _ _ _ _ hat hop hmark
      omega

/-- The log of a history has the events of the history, and no marker was misplaced. -/
theorem log_eq : history.log = empty.extend history.events := h.log_front (List.append_nil _)

end Tidy

end History

end Log

end PhpAssist

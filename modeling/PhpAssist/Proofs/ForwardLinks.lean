import PhpAssist.Proofs.HistoryLogs
import PhpAssist.Proofs.Sketches

/-!
# Forward links

What does replaying the log of a history give? The nodes that start at one place are linked to each
other from the inside out, and the start that a replay meets first is the innermost one. Following
its links finds all the others, wherever they were started, and leaves their starts undone, so that
nothing is left for them to do when the replay gets there.

The events still ahead of a replay are therefore not those of the log, and which of them are undone
depends on everything that was followed before. `leftAt` says which: those of the nodes that start
before. A step of the replay keeps this, and `replay_events` is the whole run. What it gives is said
without any links: at the place where nodes start they are all opened, the outermost one first, and
anything else is done when it was done.

## Main definitions

* `History.around`: The nodes that start where a node does, from that one to the outside.
* `History.brackets`: What the operations say in the order of the text.
* `History.leftAt`: What is left of a log in the middle of a replay.

## Theorems

* `Tidy.around_eq_cons`: The node that was started around another one is the next one around it.
* `Tidy.followFrom_linkOf`: Following the links of a node.
* `Tidy.replay_leftAt_step`: One operation.
* `Tidy.replay_events`: The steps of a log.
-/

namespace PhpAssist

namespace Event

/-- A link to a start goes on with the link of that start. -/
theorem follow_start {kind : Kind} {forward : Option Nat} {rest left : List Event}
    {kinds : List Kind} (h : followFrom forward rest = .ok (kinds, left)) :
    follow 0 (.start kind forward :: rest) = .ok (kind :: kinds, unmarked :: left) := by
  cases forward with
  | none =>
    injection h with h
    injection h with hkinds hleft
    rw [follow, ← hkinds, ← hleft]
  | some between =>
    rw [followFrom] at h
    rw [follow, h]
    rfl

/-- A node is started behind the nodes that its link leads to. -/
theorem replay_start {kind : Kind} {forward : Option Nat} {rest left : List Event}
    {kinds : List Kind} {steps : List Builder.Step} (hkind : kind ≠ .tombstone)
    (hfollow : followFrom forward rest = .ok (kinds, left)) (hleft : replay left = .ok steps) :
    replay (.start kind forward :: rest) = .ok (startSteps kinds ++ .start kind :: steps) := by
  cases forward with
  | none =>
    injection hfollow with hfollow
    injection hfollow with hkinds hrest
    rw [← hrest] at hleft
    rw [replay_start_none hkind hleft, ← hkinds, startSteps_nil, List.nil_append]
  | some between => exact replay_start_some hkind hfollow hleft

theorem startSteps_eq {kinds : List Kind} (hkinds : ∀ kind ∈ kinds, kind ≠ .tombstone) :
    startSteps kinds = kinds.reverse.map .start := by
  rw [startSteps, List.filter_eq_self.mpr fun kind hmem => bne_iff_ne.mpr (hkinds kind hmem)]

end Event

namespace Log

namespace History

variable {history : History}

/-- The nodes around the one of a marker that start where it does, from the inside out. -/
def around (history : History) (marker : Marker) : List Marker :=
  ((List.range' (marker.position + 1) (history.length - (marker.position + 1))).filter fun time =>
    history.startOf ⟨time⟩ == history.startOf marker).map Marker.mk

/-- What an operation says in the order of the text. Where a node was started, all nodes that
    start there are opened. -/
def bracketsAt (history : History) (time : Nat) : List Bracket :=
  match history[time]? with
  | some .start => ((⟨time⟩ :: history.around ⟨time⟩).reverse).map .opens
  | some (.token tok) => [.reads time tok]
  | some (.complete marker _) => [.closes marker]
  | _ => []

/-- What the operations say in the order of the text. -/
def brackets (history : History) : List Bracket :=
  (List.range history.length).flatMap history.bracketsAt

/-- What the operations from a time on say in the order of the text. -/
def bracketsFrom (history : History) (time : Nat) : List Bracket :=
  (List.range' time (history.length - time)).flatMap history.bracketsAt

/-- What the log says of an operation, but of a node that is gone, that it has had its turn. -/
def eventBut (history : History) (gone : Nat → Bool) (time : Nat) : Event :=
  if gone time = true then .unmarked else history.eventAt time

/-- The events from a time on, those of nodes that are gone undone. -/
def eventsBut (history : History) (gone : Nat → Bool) (time : Nat) : List Event :=
  (List.range' time (history.length - time)).map (history.eventBut gone)

/-- What is left of the log when the operations before a time have been replayed: the nodes that
    start before it are gone. -/
def leftAt (history : History) (time : Nat) : List Event :=
  history.eventsBut (fun later => decide (history.startOf ⟨later⟩ < time)) time

/-! ## The events that are left -/

theorem eventsBut_cons (gone : Nat → Bool) {time : Nat} (hlt : time < history.length) :
    history.eventsBut gone time =
      history.eventBut gone time :: history.eventsBut gone (time + 1) := by
  rw [eventsBut, show history.length - time = history.length - (time + 1) + 1 by omega,
    List.range'_succ, List.map_cons, eventsBut]

theorem eventsBut_congr {gone gone' : Nat → Bool} {time : Nat}
    (h : ∀ later, time ≤ later → later < history.length → gone later = gone' later) :
    history.eventsBut gone time = history.eventsBut gone' time := by
  refine List.map_congr_left fun later hlater => ?_
  have hlater := List.mem_range'_1.mp hlater
  rw [eventBut, eventBut, h later hlater.1 (by omega)]

theorem eventsBut_eq_append (gone : Nat → Bool) {time later : Nat} (hle : time ≤ later)
    (hlt : later < history.length) : history.eventsBut gone time =
      (List.range' time (later - time)).map (history.eventBut gone) ++
        history.eventBut gone later :: history.eventsBut gone (later + 1) := by
  rw [← eventsBut_cons gone hlt, eventsBut, eventsBut, ← List.map_append,
    ← range'_cut hle (Nat.le_of_lt hlt)]

theorem bracketsFrom_cons {time : Nat} (hlt : time < history.length) :
    history.bracketsFrom time = history.bracketsAt time ++ history.bracketsFrom (time + 1) := by
  rw [bracketsFrom, show history.length - time = history.length - (time + 1) + 1 by omega,
    List.range'_succ, List.flatMap_cons, bracketsFrom]

/-! ## Nodes around others -/

theorem linkOf_eq_some {marker : Marker} {between : Nat}
    (h : history.linkOf marker = some between) :
    ∃ time completed, history.PrecedesAt time completed ∧ completed.mark = marker ∧
      between = time - (marker.position + 1) := by
  rw [linkOf, Option.map_eq_some_iff] at h
  rcases h with ⟨time, hfind, rfl⟩
  rcases List.findIdx?_eq_some_iff_getElem.mp hfind with ⟨hlt, hop, _⟩
  rcases Operation.isAround_eq_true hop with ⟨completed, hat, hmark⟩
  exact ⟨time, completed, (List.getElem?_eq_getElem hlt).trans (congrArg some hat), hmark, rfl⟩

theorem not_precedesAt_of_linkOf {time : Nat} {completed : Completed}
    (h : history.linkOf completed.mark = none) : ¬ history.PrecedesAt time completed := by
  intro hat
  rw [linkOf, Option.map_eq_none_iff, List.findIdx?_eq_none_iff] at h
  have hnot := h _ (List.mem_of_getElem? hat)
  rw [Operation.isAround, beq_self_eq_true] at hnot
  exact Bool.false_ne_true hnot.symm

theorem mem_around {marker outer : Marker} : outer ∈ history.around marker ↔
    history.startOf outer = history.startOf marker ∧ marker.position < outer.position ∧
      outer.position < history.length := by
  rw [around, List.mem_map]
  constructor
  · rintro ⟨time, htime, rfl⟩
    rw [List.mem_filter, List.mem_range'_1, beq_iff_eq] at htime
    rcases htime with ⟨hrange, hstart⟩
    exact ⟨hstart, hrange.1, by dsimp only; omega⟩
  · rintro ⟨hstart, hlt, hlength⟩
    refine ⟨outer.position, List.mem_filter.mpr ⟨List.mem_range'_1.mpr ⟨hlt, by omega⟩, ?_⟩, rfl⟩
    exact beq_iff_eq.mpr hstart

/-- Behind a node around another one come the nodes around it. -/
theorem around_eq_append {marker outer : Marker} (hmem : outer ∈ history.around marker) :
    ∃ front, history.around marker = front ++ outer :: history.around outer ∧
      ∀ between ∈ front, between.position < outer.position := by
  rcases mem_around.mp hmem with ⟨hsame, hlt, hlength⟩
  -- The range of positions is cut at the outer node.
  have hrange := range'_cut hlt (Nat.le_of_lt hlength)
  rw [show history.length - outer.position = history.length - (outer.position + 1) + 1 by omega,
    List.range'_succ] at hrange
  refine ⟨((List.range' (marker.position + 1) (outer.position - (marker.position + 1))).filter
    fun time => history.startOf ⟨time⟩ == history.startOf marker).map Marker.mk, ?_,
    fun between hbetween => ?_⟩
  · have houter : (history.startOf ⟨outer.position⟩ == history.startOf marker) = true :=
      beq_iff_eq.mpr hsame
    rw [around, hrange, List.filter_append, List.filter_cons, if_pos houter, List.map_append,
      List.map_cons, around, hsame]
  · rcases List.mem_map.mp hbetween with ⟨time, htime, rfl⟩
    have htime := List.mem_range'_1.mp (List.mem_filter.mp htime).1
    dsimp only
    omega

theorem starts_of_mem_around {marker outer : Marker} (hmem : outer ∈ history.around marker) :
    history.Starts outer := by
  rcases mem_around.mp hmem with ⟨hsame, hlt, _⟩
  have hle := history.startOf_le marker
  rcases history.startOf_cases outer with hplain | ⟨completed, hat, _, _⟩
  · omega
  · exact ⟨_, hat, rfl⟩

namespace Tidy

variable (h : history.Tidy)
include h

theorem around_eq_nil {marker : Marker} (hlink : history.linkOf marker = none) :
    history.around marker = [] := by
  refine List.eq_nil_iff_forall_not_mem.mpr fun outer hmem => ?_
  rcases mem_around.mp hmem with ⟨hsame, hlt, _⟩
  rcases h.exists_precedes hsame.symm hlt with ⟨time, completed, hat, rfl, _⟩
  exact not_precedesAt_of_linkOf hlink hat

/-- No node that starts where a node does was started between it and the one around it. -/
theorem startOf_ne_of_between {time : Nat} {completed : Completed} {between : Marker}
    (hat : history.PrecedesAt time completed)
    (hmore : completed.mark.position < between.position) (hless : between.position < time) :
    history.startOf between ≠ history.startOf completed.mark := by
  intro hsame
  rcases h.exists_precedes hsame.symm hmore with ⟨other, completed', hother, hmark, hle⟩
  have heq := h.precededOnce _ _ _ _ hother hat hmark
  omega

/-- The node that was started around another one is the next one around it. -/
theorem around_eq_cons {time : Nat} {completed : Completed}
    (hat : history.PrecedesAt time completed) :
    history.around completed.mark = ⟨time⟩ :: history.around ⟨time⟩ := by
  rcases h.starts_of_precedes hat with ⟨_, hlt⟩
  have hlength := (List.getElem?_eq_some_iff.mp hat).1
  have hstart := startOf_precede ⟨time⟩ hat hlt
  rcases around_eq_append (mem_around.mpr ⟨hstart, hlt, hlength⟩) with ⟨front, hfront, hless⟩
  -- What stood in front of it would have been started between the two.
  have hnil : front = [] := by
    refine List.eq_nil_iff_forall_not_mem.mpr fun outer hmem => ?_
    have houter : outer ∈ history.around completed.mark := by
      rw [hfront]
      exact List.mem_append_left _ hmem
    rcases mem_around.mp houter with ⟨hsame, hmore, _⟩
    exact h.startOf_ne_of_between hat hmore (hless outer hmem) hsame
  rw [hfront, hnil, List.nil_append]

/-- Following the links from a node finds the nodes that start where it does, and they have had
    their turn then. -/
theorem followFrom_linkOf (marker : Marker) (gone : Nat → Bool)
    (hgone : ∀ outer ∈ history.around marker, gone outer.position = false) :
    Event.followFrom (history.linkOf marker) (history.eventsBut gone (marker.position + 1)) =
      .ok ((history.around marker).map history.kindOf, history.eventsBut
        (fun time => gone time || history.startOf ⟨time⟩ == history.startOf marker)
        (marker.position + 1)) := by
  rcases hlink : history.linkOf marker with _ | between
  -- Without a link nothing was started around the node, and nothing is left out.
  · have hnil := h.around_eq_nil hlink
    rw [Event.followFrom, hnil, List.map_nil]
    congr 2
    refine eventsBut_congr fun time hle hlt => ?_
    have hnot : (history.startOf ⟨time⟩ == history.startOf marker) = false := by
      refine beq_eq_false_iff_ne.mpr fun hsame => ?_
      have hmem := mem_around.mpr ⟨hsame, hle, hlt⟩
      rw [hnil] at hmem
      exact List.not_mem_nil hmem
    rw [hnot, Bool.or_false]
  · rcases linkOf_eq_some hlink with ⟨time, completed, hat, rfl, rfl⟩
    rcases h.starts_of_precedes hat with ⟨_, hlt⟩
    have hlength := (List.getElem?_eq_some_iff.mp hat).1
    have hcons := h.around_eq_cons hat
    have hstart := startOf_precede ⟨time⟩ hat hlt
    rw [hcons] at hgone
    have hnext := followFrom_linkOf ⟨time⟩ gone fun outer hmem =>
      hgone outer (List.mem_cons_of_mem _ hmem)
    have hevent : history.eventBut gone time =
        .start (history.kindOf ⟨time⟩) (history.linkOf ⟨time⟩) := by
      have htime := hgone ⟨time⟩ List.mem_cons_self
      have hnot : ¬ gone time = true := Bool.eq_false_iff.mp htime
      rw [eventBut, if_neg hnot]
      exact eventAt_starts ⟨time⟩ ⟨_, hat, rfl⟩
    -- The link leads over the events between the two starts to the second of them.
    have hfollow := Event.follow_append
      ((List.range' (completed.mark.position + 1) (time - (completed.mark.position + 1))).map
        (history.eventBut gone)) (@Event.follow_start (history.kindOf ⟨time⟩) _ _ _ _ hnext)
    rw [List.length_map, List.length_range', Nat.add_zero, ← hevent,
      ← eventsBut_eq_append gone hlt hlength] at hfollow
    rw [Event.followFrom, hfollow, hcons, List.map_cons, eventsBut_eq_append _ hlt hlength, hstart]
    congr 3
    · refine List.map_congr_left fun later hlater => ?_
      have hlater := List.mem_range'_1.mp hlater
      have hne : history.startOf ⟨later⟩ ≠ history.startOf completed.mark :=
        h.startOf_ne_of_between hat hlater.1 (by dsimp only; omega)
      rw [eventBut, eventBut, beq_eq_false_iff_ne.mpr hne, Bool.or_false]
    · rw [eventBut, hstart, beq_self_eq_true, Bool.or_true, if_pos rfl]
termination_by history.length - marker.position

/-! ## The replay -/

theorem kindOf_eq {time : Nat} {marker : Marker} {kind : Kind}
    (hat : history.CompletesAt time marker kind) : history.kindOf marker = kind := by
  rcases hfind : history.findSome? (Operation.kindFor? marker) with _ | kind'
  · have hnone := List.findSome?_eq_none_iff.mp hfind _ (List.mem_of_getElem? hat)
    rw [Operation.kindFor?, if_pos rfl] at hnone
    exact absurd hnone (Option.some_ne_none _)
  · rcases List.exists_of_findSome?_eq_some hfind with ⟨op, hmem, hop⟩
    rcases List.mem_iff_getElem?.mp hmem with ⟨other, hother⟩
    rw [Operation.kindFor?_eq_some hop] at hother
    -- A node is completed once, so the first completion is this one.
    have htime := h.once _ _ _ _ _ hat hother
    rw [← htime] at hother
    injection unique_at hat hother with _ hkind
    rw [kindOf, hfind, Option.getD_some, hkind]

theorem kindOf_ne {marker : Marker} (hstarts : history.Starts marker) :
    history.kindOf marker ≠ .tombstone := by
  rcases h.completed marker hstarts with ⟨time, kind, hat⟩
  rw [h.kindOf_eq hat]
  exact h.named _ _ _ hat

/-- Where no node was started plainly, nothing that is started later starts. -/
theorem startOf_ne_of_lt {later : Marker} {time : Nat} (hop : history[time]? ≠ some .start)
    (hlt : time < later.position) : history.startOf later ≠ time := by
  intro heq
  rcases history.startOf_cases later with hplain | ⟨completed, hat, _, _⟩
  · omega
  · have hstart := h.start_at_startOf ⟨_, hat, rfl⟩
    rw [heq] at hstart
    exact hop hstart

/-- Unless a node was started plainly, the same nodes are gone before and behind an operation. -/
theorem leftAt_cons {time : Nat} {op : Operation} (hop : history[time]? = some op)
    (hne : op ≠ .start) : history.leftAt time =
      history.eventBut (fun later => decide (history.startOf ⟨later⟩ < time)) time ::
        history.leftAt (time + 1) := by
  rw [leftAt, eventsBut_cons _ (List.getElem?_eq_some_iff.mp hop).1, leftAt]
  congr 1
  refine eventsBut_congr fun later hlater _ => decide_eq_decide.mpr ?_
  have hnot : history[time]? ≠ some .start := fun heq =>
    hne (Option.some.inj (hop.symm.trans heq))
  have hplace := h.startOf_ne_of_lt hnot (show time < (Marker.mk later).position from hlater)
  omega

theorem replay_leftAt_start {time : Nat} {steps : List Builder.Step}
    (hop : history[time]? = some .start)
    (hnext : Event.replay (history.leftAt (time + 1)) = .ok steps) :
    Event.replay (history.leftAt time) =
      .ok ((history.bracketsAt time).map (Bracket.step history.kindOf) ++ steps) := by
  have hlt := (List.getElem?_eq_some_iff.mp hop).1
  have hplain : history.startOf ⟨time⟩ = time := startOf_start ⟨time⟩ hop
  have hstarts : history.Starts ⟨time⟩ := ⟨_, hop, rfl⟩
  have hevent : history.eventBut (fun later => decide (history.startOf ⟨later⟩ < time)) time =
      .start (history.kindOf ⟨time⟩) (history.linkOf ⟨time⟩) := by
    rw [eventBut, hplain, decide_eq_false (Nat.lt_irrefl time), if_neg Bool.false_ne_true]
    exact eventAt_starts ⟨time⟩ hstarts
  have hfollow := h.followFrom_linkOf ⟨time⟩
    (fun later => decide (history.startOf ⟨later⟩ < time)) fun outer hmem => by
      rw [(mem_around.mp hmem).1, hplain]
      exact decide_eq_false (Nat.lt_irrefl time)
  -- With the nodes that start here, those are gone that start up to here.
  have hleft : history.eventsBut (fun later => decide (history.startOf ⟨later⟩ < time) ||
      history.startOf ⟨later⟩ == history.startOf ⟨time⟩) (time + 1) =
        history.leftAt (time + 1) := by
    refine eventsBut_congr fun later _ _ => ?_
    rw [hplain, Bool.eq_iff_iff, Bool.or_eq_true, decide_eq_true_iff, beq_iff_eq,
      decide_eq_true_iff]
    omega
  have hkinds : ∀ kind ∈ (history.around ⟨time⟩).map history.kindOf, kind ≠ .tombstone := by
    intro kind hmem
    rcases List.mem_map.mp hmem with ⟨outer, houter, rfl⟩
    exact h.kindOf_ne (starts_of_mem_around houter)
  dsimp only at hfollow
  rw [hleft] at hfollow
  rw [leftAt, eventsBut_cons _ hlt, hevent, Event.replay_start (h.kindOf_ne hstarts) hfollow hnext,
    Event.startSteps_eq hkinds, bracketsAt, hop]
  simp only [List.reverse_cons, List.map_append, List.map_map, List.map_cons, List.map_nil,
    List.map_reverse, List.append_assoc, List.singleton_append]
  rfl

/-- Replaying one operation gives what it says in the order of the text. -/
theorem replay_leftAt_step {time : Nat} {steps : List Builder.Step} (hlt : time < history.length)
    (hnext : Event.replay (history.leftAt (time + 1)) = .ok steps) :
    Event.replay (history.leftAt time) =
      .ok ((history.bracketsAt time).map (Bracket.step history.kindOf) ++ steps) := by
  have hpresent (hplain : history.startOf ⟨time⟩ = time) : history.eventBut
      (fun later => decide (history.startOf ⟨later⟩ < time)) time = history.eventAt time := by
    rw [eventBut, hplain, decide_eq_false (Nat.lt_irrefl time), if_neg Bool.false_ne_true]
  have hop : history[time]? = some history[time] := List.getElem?_eq_getElem hlt
  -- One case for each operation that the time may have.
  rcases hcase : history[time] with _ | tok | ⟨marker, kind⟩ | completed
  all_goals rw [hcase] at hop
  · exact h.replay_leftAt_start hop hnext
  · have hplain : history.startOf ⟨time⟩ = time := by rw [startOf, hop]
    rw [h.leftAt_cons hop Operation.noConfusion, hpresent hplain, eventAt, bracketsAt, hop,
      Event.replay, hnext]
    rfl
  · have hplain : history.startOf ⟨time⟩ = time := by rw [startOf, hop]
    rw [h.leftAt_cons hop Operation.noConfusion, hpresent hplain, eventAt, bracketsAt, hop,
      Event.replay, hnext]
    rfl
  · -- Around another one: a node that starts where that one does had its turn there.
    have hless := (h.starts_of_precedes hop).2
    have hgone : history.startOf ⟨time⟩ < time := by
      rw [startOf_precede ⟨time⟩ hop hless]
      exact Nat.lt_of_le_of_lt (history.startOf_le _) hless
    rw [h.leftAt_cons hop Operation.noConfusion, eventBut, if_pos (decide_eq_true hgone),
      bracketsAt, hop, Event.replay_unmarked, hnext]
    rfl

theorem replay_leftAt {time : Nat} (hle : time ≤ history.length) :
    Event.replay (history.leftAt time) =
      .ok ((history.bracketsFrom time).map (Bracket.step history.kindOf)) := by
  rcases Nat.eq_or_lt_of_le hle with rfl | hlt
  · rw [leftAt, eventsBut, bracketsFrom, Nat.sub_self, List.range'_zero, List.map_nil,
      List.flatMap_nil, List.map_nil, Event.replay]
  · rw [bracketsFrom_cons hlt, List.map_append]
    exact h.replay_leftAt_step hlt (replay_leftAt hlt)
termination_by history.length - time

/-- Replaying the log gives the steps that the operations say in the order of the text. -/
theorem replay_events : Event.replay history.events =
    .ok (history.brackets.map (Bracket.step history.kindOf)) := by
  have hreplay := h.replay_leftAt (Nat.zero_le _)
  have hall : history.leftAt 0 = history.events := by
    rw [leftAt, eventsBut, Nat.sub_zero, events, List.range_eq_range']
    refine List.map_congr_left fun time _ => if_neg ?_
    rw [decide_eq_true_iff]
    exact Nat.not_lt_zero _
  rwa [hall, bracketsFrom, Nat.sub_zero, ← List.range_eq_range'] at hreplay

end Tidy

end History

end Log

end PhpAssist

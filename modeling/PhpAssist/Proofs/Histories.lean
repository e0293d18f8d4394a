import PhpAssist.Tree.Log

/-!
# Histories of a parse

Rules of the grammar do four things to the log: they start a node, they read a token, they complete
a node, and they start a node around one that was completed. Which rule did them does not matter to
the tree, so a history is any list of such operations, and its log is what they leave behind.

A node that is started around another one starts where that one does, although it was started
later. Of two nodes that start at one place the one that was started later is the outer one. For
this reason `StartsBefore` orders nodes by place first and by time backwards then, and `LastFirst`
asks that they are completed in the opposite order.

The order of time is `Stacked`, and it is not enough: a node could be started around one whose own
surroundings have been completed meanwhile, and it would end behind something that it starts inside
of. Nothing else is in the way: where those surroundings are `StillOpen` the two orders come to the
same. The rules of the grammar are `Prompt`, they start a node around another one before anything
else is completed.

Whether a given history is tidy can be decided, and so can everything else that is said of times.

## Main definitions

* `Log.Operation`: What a parse does to its log.
* `Log.History`: What a parse did to its log.
* `History.startOf`, `History.StartsBefore`: Where the node of a marker starts.
* `History.Tidy`: Every marker is used for one node, and the first one is around everything.
* `History.LastFirst`: What starts last is completed first.
* `History.Stacked`: What was started last is completed first.
* `History.StillOpen`, `History.Prompt`: A node is started around another one in time, or right
  away.

## Theorems

* `Tidy.exists_precedes`: Why nodes start at one place.
* `Tidy.lastFirst_iff_stillOpen`: When the order of time is enough.
* `History.not_lastFirst_overtaking`: When it is not.
-/

namespace PhpAssist

namespace Log

/-- What a parse does to its log. -/
inductive Operation where
  | start
  | token (token : Token)
  | complete (marker : Marker) (kind : Kind)
  | precede (completed : Completed)
  deriving DecidableEq

namespace Operation

/-- Whether an operation starts a node, plain or around another one. -/
def starts : Operation → Bool
  | .start | .precede _ => true
  | .token _ | .complete _ _ => false

/-- The node that an operation completes, and its kind. -/
def completion? : Operation → Option (Marker × Kind)
  | .complete marker kind => some (marker, kind)
  | _ => none

/-- The node that an operation starts one around. -/
def preceded? : Operation → Option Completed
  | .precede completed => some completed
  | _ => none

theorem completion?_eq_some {op : Operation} {marker : Marker} {kind : Kind} :
    op.completion? = some (marker, kind) ↔ op = .complete marker kind := by
  cases op with
  | complete other kind' => rw [completion?, Option.some.injEq, Prod.mk.injEq, complete.injEq]
  | _ => exact iff_of_false (fun h => Option.some_ne_none _ h.symm) Operation.noConfusion

theorem preceded?_eq_some {op : Operation} {completed : Completed} :
    op.preceded? = some completed ↔ op = .precede completed := by
  cases op with
  | precede other => rw [preceded?, Option.some.injEq, precede.injEq]
  | _ => exact iff_of_false (fun h => Option.some_ne_none _ h.symm) Operation.noConfusion

end Operation

/-- Does an operation. -/
def perform (log : Log) : Operation → Log
  | .start => log.start
  | .token tok => log.push (.token tok)
  | .complete marker kind => log.complete marker kind
  | .precede completed => log.precede completed

/-- What a parse did to its log, the earliest operation first. The time of an operation is its
    number, and it is the position of the marker that the operation hands out. -/
abbrev History := List Operation

namespace History

/-- The log that operations leave behind. -/
def log (history : History) : Log := history.foldl perform empty

/-- A marker was handed out for a node. -/
def Starts (history : History) (marker : Marker) : Prop :=
  ∃ op, history[marker.position]? = some op ∧ op.starts = true

/-- The operation at a time completes the node of a marker. -/
def CompletesAt (history : History) (time : Nat) (marker : Marker) (kind : Kind) : Prop :=
  history[time]? = some (.complete marker kind)

/-- The operation at a time starts a node around one that was completed. -/
def PrecedesAt (history : History) (time : Nat) (completed : Completed) : Prop :=
  history[time]? = some (.precede completed)

/-- Where the node of a marker starts: where it was started, or where the node starts that it was
    started around. -/
def startOf (history : History) (marker : Marker) : Nat :=
  match history[marker.position]? with
  | some (.precede completed) =>
    if completed.mark.position < marker.position then startOf history completed.mark
    else marker.position
  | _ => marker.position
termination_by marker.position

/-- A node starts before another one, or it starts at the same place and was put around it. -/
def StartsBefore (history : History) (first second : Marker) : Prop :=
  history.startOf first < history.startOf second ∨
    (history.startOf first = history.startOf second ∧ second.position < first.position)

/-- Every marker that is handed out is used for one node: it is completed once, under a kind that
    is not the placeholder of a start without one, and at most one node is started around it then.
    The first node is completed by the last operation. -/
structure Tidy (history : History) : Prop where
  first : history.head? = some .start
  last : ∃ kind, history.getLast? = some (.complete ⟨0⟩ kind)
  completed : ∀ marker, history.Starts marker → ∃ time kind, history.CompletesAt time marker kind
  started : ∀ time marker kind, history.CompletesAt time marker kind →
    history.Starts marker ∧ marker.position < time
  once : ∀ time later marker kind kind', history.CompletesAt time marker kind →
    history.CompletesAt later marker kind' → time = later
  named : ∀ time marker kind, history.CompletesAt time marker kind → kind ≠ .tombstone
  preceded : ∀ time completed, history.PrecedesAt time completed →
    ∃ earlier, earlier < time ∧ history.CompletesAt earlier completed.mark completed.kind
  precededOnce : ∀ time later completed completed', history.PrecedesAt time completed →
    history.PrecedesAt later completed' → completed.mark = completed'.mark → time = later

/-- Nodes are completed in the order opposite to the one in which they start: what starts behind the
    start of a node, before that node is completed, is completed before it. A node around another
    one counts where it starts, not when it was started. -/
def LastFirst (history : History) : Prop :=
  ∀ outer inner time later kind kind', history.CompletesAt time outer kind →
    history.CompletesAt later inner kind' → history.StartsBefore outer inner →
    history.startOf inner < time → later < time

/-- Nodes are completed in the order opposite to the one in which they were started. A node is
    started around another one only while all that is open was started before that one. -/
structure Stacked (history : History) : Prop where
  nested : ∀ outer inner time later kind kind', history.CompletesAt time outer kind →
    history.CompletesAt later inner kind' → outer.position < inner.position →
    inner.position < time → later < time
  free : ∀ time completed marker, history.PrecedesAt time completed → history.Starts marker →
    marker.position < time → (∀ done kind, history.CompletesAt done marker kind → time < done) →
    marker.position < completed.mark.position

/-- A node is started around another one only before anything else is completed. -/
def Prompt (history : History) : Prop :=
  ∀ earlier time between completed marker kind, history.PrecedesAt time completed →
    history.CompletesAt earlier completed.mark completed.kind → earlier < between →
    between < time → ¬ history.CompletesAt between marker kind

/-- Where a node is started around another one, what the other one is inside of was not completed
    since. -/
def StillOpen (history : History) : Prop :=
  ∀ earlier time done completed outer kind, history.PrecedesAt time completed →
    history.CompletesAt earlier completed.mark completed.kind →
    history.CompletesAt done outer kind → history.StartsBefore outer completed.mark →
    earlier < done → time < done

variable {history : History}

/-! ## Where nodes start -/

theorem position_lt {marker : Marker} (h : history.Starts marker) :
    marker.position < history.length := by
  rcases h with ⟨op, hat, _⟩
  exact (List.getElem?_eq_some_iff.mp hat).1

/-- One operation is done at a time. -/
theorem unique_at {time : Nat} {op op' : Operation} (h : history[time]? = some op)
    (h' : history[time]? = some op') : op = op' :=
  Option.some.inj (h.symm.trans h')

theorem Prompt.stillOpen (hprompt : history.Prompt) : history.StillOpen := by
  intro earlier time done completed outer kind hat hearlier hdone _ hless
  rcases Nat.lt_trichotomy done time with hbefore | rfl | hafter
  · exact absurd hdone (hprompt _ _ _ _ _ _ hat hearlier hless hbefore)
  · exact Operation.noConfusion (unique_at hat hdone)
  · exact hafter

theorem startOf_start (marker : Marker) (h : history[marker.position]? = some .start) :
    history.startOf marker = marker.position := by
  rw [startOf, h]

theorem startOf_precede (marker : Marker) {completed : Completed}
    (h : history.PrecedesAt marker.position completed)
    (hlt : completed.mark.position < marker.position) :
    history.startOf marker = history.startOf completed.mark := by
  rw [startOf, h]
  exact if_pos hlt

theorem startOf_cases (history : History) (marker : Marker) :
    history.startOf marker = marker.position ∨
      ∃ completed, history.PrecedesAt marker.position completed ∧
        completed.mark.position < marker.position ∧
        history.startOf marker = history.startOf completed.mark := by
  rw [startOf]
  split
  · rename_i completed hat
    by_cases hlt : completed.mark.position < marker.position
    · exact .inr ⟨completed, hat, hlt, if_pos hlt⟩
    · exact .inl (if_neg hlt)
  · exact .inl rfl

theorem startOf_le (history : History) (marker : Marker) :
    history.startOf marker ≤ marker.position := by
  rcases history.startOf_cases marker with h | ⟨completed, _, hlt, h⟩
  · exact Nat.le_of_eq h
  · have hle := startOf_le history completed.mark
    omega
termination_by marker.position

namespace Tidy

variable (h : history.Tidy)
include h

theorem starts_of_precedes {time : Nat} {completed : Completed}
    (hat : history.PrecedesAt time completed) :
    history.Starts completed.mark ∧ completed.mark.position < time := by
  rcases h.preceded time completed hat with ⟨earlier, hlt, hcompletes⟩
  rcases h.started earlier _ _ hcompletes with ⟨hstarts, hearlier⟩
  exact ⟨hstarts, Nat.lt_trans hearlier hlt⟩

/-- Where a node starts, a node was started plainly. -/
theorem start_at_startOf {marker : Marker} (hstarts : history.Starts marker) :
    history[history.startOf marker]? = some .start := by
  rcases hstarts with ⟨op, hat, hop⟩
  rcases op with _ | tok | ⟨mark, kind⟩ | completed
  · rw [startOf_start marker hat, hat]
  · exact absurd hop Bool.false_ne_true
  · exact absurd hop Bool.false_ne_true
  · rcases h.starts_of_precedes hat with ⟨hfirst, hlt⟩
    rw [startOf_precede marker hat hlt]
    exact start_at_startOf hfirst
termination_by marker.position

theorem startOf_ne {time : Nat} {marker : Marker} {op : Operation}
    (hstarts : history.Starts marker) (hat : history[time]? = some op) (hop : op ≠ .start) :
    history.startOf marker ≠ time := by
  rintro rfl
  exact hop (unique_at hat (h.start_at_startOf hstarts))

/-- Of two nodes that start at one place, the one that was started later was started around the
    other one, or around a node that was started around that one and so on. -/
theorem exists_precedes {inner outer : Marker}
    (hsame : history.startOf inner = history.startOf outer)
    (hlt : inner.position < outer.position) :
    ∃ time completed, history.PrecedesAt time completed ∧ completed.mark = inner ∧
      time ≤ outer.position := by
  have hinner := history.startOf_le inner
  rcases history.startOf_cases outer with hplain | ⟨completed, hat, hbelow, houter⟩
  · omega
  -- Along the chain of starts, from the outer node inwards.
  rcases Nat.lt_trichotomy inner.position completed.mark.position with hless | heq | hmore
  · rcases exists_precedes (hsame.trans houter) hless with ⟨time, first, hfirst, hmark, hle⟩
    exact ⟨time, first, hfirst, hmark, by omega⟩
  · exact ⟨outer.position, completed, hat, congrArg Marker.mk heq.symm, Nat.le_refl _⟩
  · -- Two nodes would have been started around the one that `outer` was started around.
    rcases exists_precedes (houter.symm.trans hsame.symm) hmore with
      ⟨time, first, hfirst, hmark, hle⟩
    have htime := h.precededOnce _ _ _ _ hfirst hat hmark
    omega
termination_by outer.position

end Tidy

/-! ## Deciding -/

/-- What some of the operations have, with their times. -/
def timed {α : Type} (history : History) (pick : Operation → Option α) : List (Nat × α) :=
  (List.range history.length).filterMap fun time => (history[time]?.bind pick).map (Prod.mk time)

theorem mem_timed {α : Type} {pick : Operation → Option α} {time : Nat} {x : α} :
    (time, x) ∈ history.timed pick ↔ ∃ op, history[time]? = some op ∧ pick op = some x := by
  simp only [timed, List.mem_filterMap, List.mem_range, Option.map_eq_some_iff, Prod.mk.injEq,
    Option.bind_eq_some_iff]
  constructor
  · rintro ⟨_, _, _, ⟨op, hat, hop⟩, rfl, rfl⟩
    exact ⟨op, hat, hop⟩
  · rintro ⟨op, hat, hop⟩
    exact ⟨time, (List.getElem?_eq_some_iff.mp hat).1, x, ⟨op, hat, hop⟩, rfl, rfl⟩

theorem mem_completions {time : Nat} {marker : Marker} {kind : Kind} :
    (time, marker, kind) ∈ history.timed Operation.completion? ↔
      history.CompletesAt time marker kind := by
  rw [mem_timed]
  constructor
  · rintro ⟨op, hat, hop⟩
    rwa [Operation.completion?_eq_some.mp hop] at hat
  · intro hat
    exact ⟨_, hat, rfl⟩

theorem mem_precedings {time : Nat} {completed : Completed} :
    (time, completed) ∈ history.timed Operation.preceded? ↔
      history.PrecedesAt time completed := by
  rw [mem_timed]
  constructor
  · rintro ⟨op, hat, hop⟩
    rwa [Operation.preceded?_eq_some.mp hop] at hat
  · intro hat
    exact ⟨_, hat, rfl⟩

instance decidableStarts : DecidablePred history.Starts := fun marker =>
  decidable_of_iff ((history[marker.position]?).any Operation.starts = true)
    (Option.any_eq_true _ _)

instance decidableTidy : Decidable history.Tidy :=
  decidable_of_iff
    (history.head? = some .start ∧
      (∃ done ∈ history.timed Operation.completion?,
        done.1 + 1 = history.length ∧ done.2.1 = ⟨0⟩) ∧
      (∀ time ∈ List.range history.length, history.Starts ⟨time⟩ →
        ∃ done ∈ history.timed Operation.completion?, done.2.1 = ⟨time⟩) ∧
      (∀ done ∈ history.timed Operation.completion?,
        history.Starts done.2.1 ∧ done.2.1.position < done.1 ∧ done.2.2 ≠ .tombstone) ∧
      (∀ done ∈ history.timed Operation.completion?, ∀ again ∈ history.timed Operation.completion?,
        done.2.1 = again.2.1 → done.1 = again.1) ∧
      (∀ around ∈ history.timed Operation.preceded?, ∃ done ∈ history.timed Operation.completion?,
        done.1 < around.1 ∧ done.2 = (around.2.mark, around.2.kind)) ∧
      ∀ around ∈ history.timed Operation.preceded?, ∀ again ∈ history.timed Operation.preceded?,
        around.2.mark = again.2.mark → around.1 = again.1) <| by
    simp only [Prod.forall, Prod.exists, mem_completions, mem_precedings]
    -- What is left between the two sides is the order in which they bind and which parts they join.
    constructor
    · rintro ⟨hfirst, ⟨time, marker, kind, hlast, hlength, rfl⟩, hcompleted, hstarted, honce,
        hpreceded, hprecededOnce⟩
      refine ⟨hfirst, ⟨kind, ?_⟩, fun marker hstarts => ?_, fun time marker kind hat => ?_,
        fun time later marker kind kind' hat hlater => ?_, fun time marker kind hat => ?_,
        fun time completed hat => ?_, fun time later completed completed' hat hlater hmark => ?_⟩
      · rw [List.getLast?_eq_getElem?, ← hlength, Nat.add_sub_cancel]
        exact hlast
      · rcases hcompleted _ (List.mem_range.mpr (position_lt hstarts)) hstarts with
          ⟨time, _, kind, hat, rfl⟩
        exact ⟨time, kind, hat⟩
      · exact ⟨(hstarted _ _ _ hat).1, (hstarted _ _ _ hat).2.1⟩
      · exact honce _ _ _ hat _ _ _ hlater rfl
      · exact (hstarted _ _ _ hat).2.2
      · rcases hpreceded _ _ hat with ⟨earlier, _, _, hearlier, hlt, hmark⟩
        injection hmark with hmark hkind
        rw [hmark, hkind] at hearlier
        exact ⟨earlier, hlt, hearlier⟩
      · exact hprecededOnce _ _ hat _ _ hlater hmark
    · intro h
      refine ⟨h.first, ?_, fun other _ hstarts => ?_, fun time marker kind hat => ?_,
        fun time marker kind hat later marker' kind' hlater hmark => ?_,
        fun time completed hat => ?_, fun time completed hat later completed' => ?_⟩
      · rcases h.last with ⟨kind, hlast⟩
        rw [List.getLast?_eq_getElem?] at hlast
        have hlt := (List.getElem?_eq_some_iff.mp hlast).1
        exact ⟨_, _, kind, hlast, by omega, rfl⟩
      · rcases h.completed _ hstarts with ⟨time, kind, hat⟩
        exact ⟨time, _, kind, hat, rfl⟩
      · exact ⟨(h.started _ _ _ hat).1, (h.started _ _ _ hat).2, h.named _ _ _ hat⟩
      · rw [← hmark] at hlater
        exact h.once _ _ _ _ _ hat hlater
      · rcases h.preceded _ _ hat with ⟨earlier, hlt, hearlier⟩
        exact ⟨earlier, _, _, hearlier, hlt, rfl⟩
      · exact h.precededOnce _ _ _ _ hat

instance decidableStacked : Decidable history.Stacked :=
  decidable_of_iff
    ((∀ done ∈ history.timed Operation.completion?, ∀ other ∈ history.timed Operation.completion?,
        done.2.1.position < other.2.1.position → other.2.1.position < done.1 →
          other.1 < done.1) ∧
      ∀ around ∈ history.timed Operation.preceded?, ∀ time ∈ List.range history.length,
        history.Starts ⟨time⟩ → time < around.1 →
          (∀ done ∈ history.timed Operation.completion?, done.2.1 = ⟨time⟩ → around.1 < done.1) →
            time < around.2.mark.position) <| by
    simp only [Prod.forall, mem_completions, mem_precedings]
    constructor
    · rintro ⟨hnested, hfree⟩
      refine ⟨fun outer inner time later kind kind' hat hlater => ?_,
        fun time completed marker hat hstarts hlt hopen => ?_⟩
      · exact hnested _ _ _ hat _ _ _ hlater
      · refine hfree _ _ hat _ (List.mem_range.mpr (position_lt hstarts)) hstarts hlt ?_
        rintro done _ kind hdone rfl
        exact hopen done kind hdone
    · intro h
      refine ⟨fun time outer kind hat later inner kind' hlater => ?_,
        fun time completed hat other _ hstarts hlt hopen => ?_⟩
      · exact h.nested _ _ _ _ _ _ hat hlater
      · exact h.free _ _ _ hat hstarts hlt fun done kind hdone => hopen _ _ _ hdone rfl

instance decidablePrompt : Decidable history.Prompt :=
  decidable_of_iff
    (∀ around ∈ history.timed Operation.preceded?, ∀ done ∈ history.timed Operation.completion?,
      done.2 = (around.2.mark, around.2.kind) → ∀ between ∈ history.timed Operation.completion?,
        done.1 < between.1 → ¬ between.1 < around.1) <| by
    simp only [Prod.forall, mem_completions, mem_precedings]
    constructor
    · intro h earlier time between completed marker kind hat hearlier hmore hless hbetween
      exact h _ _ hat _ _ _ hearlier rfl _ _ _ hbetween hmore hless
    · intro h time completed hat earlier marker kind hearlier hmark between other kind' hbetween
        hmore hless
      injection hmark with hmark hkind
      rw [hmark, hkind] at hearlier
      exact h _ _ _ _ _ _ hat hearlier hmore hless hbetween

namespace Tidy

variable (h : history.Tidy)
include h

/-! ## The order of time -/

/-- What starts behind the start of a node that is open is completed before it. -/
theorem lt_of_stacked (hstacked : history.Stacked) (hopen : history.StillOpen)
    {outer inner : Marker} {time later : Nat} {kind kind' : Kind}
    (hat : history.CompletesAt time outer kind)
    (hlater : history.CompletesAt later inner kind')
    (hstart : history.startOf outer < history.startOf inner)
    (hless : history.startOf inner < time) :
    later < time := by
  -- Each of the two nodes may be one around another; the recursion goes back to that other one.
  have hinner := (h.started _ _ _ hlater).1
  -- The node was started in time, or else the one it was started around had lost what is around it.
  have hbelow : inner.position < time := by
    rcases history.startOf_cases inner with hplain | ⟨completed, hprecedes, hlt, hinside⟩
    · omega
    rcases h.preceded _ _ hprecedes with ⟨earlier, hearlier, hcompletes⟩
    have hbefore := lt_of_stacked hstacked hopen hat hcompletes (by omega) (by omega)
    exact hopen _ _ _ _ _ _ hprecedes hcompletes hat (.inl (by omega)) hbefore
  by_cases hnested : outer.position < inner.position
  · exact hstacked.nested _ _ _ _ _ _ hat hlater hnested hbelow
  have hle := history.startOf_le inner
  rcases history.startOf_cases outer with hplain | ⟨completed, hprecedes, hlt, hinside⟩
  · omega
  rcases h.preceded _ _ hprecedes with ⟨earlier, hearlier, hcompletes⟩
  have hmore := (h.started _ _ _ hat).2
  -- The node that the outer one was started around is around the inner one already, or the inner
  -- one started behind it and was completed when the outer one was started.
  rcases Nat.lt_trichotomy (history.startOf inner) earlier with hbefore | heq | hafter
  · have hfirst := lt_of_stacked hstacked hopen hcompletes hlater (by omega) hbefore
    omega
  · exact absurd heq (h.startOf_ne hinner hcompletes Operation.noConfusion)
  · refine Nat.not_le.mp fun hnot => ?_
    have hplace : inner.position < outer.position := by
      refine Nat.lt_of_le_of_ne (Nat.not_lt.mp hnested) fun heq => ?_
      rw [show inner = outer from congrArg Marker.mk heq] at hstart
      exact absurd hstart (Nat.lt_irrefl _)
    have hfree := hstacked.free _ _ _ hprecedes hinner hplace fun done kind hdone => by
      rw [h.once _ _ _ _ _ hdone hlater]
      omega
    have hfirst := (h.started _ _ _ hcompletes).2
    omega
termination_by inner.position + outer.position

/-- A node that starts last and is completed first is still open when one is started inside of
    it. -/
theorem stillOpen_of_lastFirst (horder : history.LastFirst) : history.StillOpen := by
  intro earlier time done completed outer kind hat hearlier hdone hstart hless
  have hmark := (h.starts_of_precedes hat).2
  have hmore := (h.started _ _ _ hearlier).2
  have hle := history.startOf_le completed.mark
  rcases hstart with hstart | ⟨hsame, hlt⟩
  · -- What is around the first node by its place is around the one that is started around it.
    rcases h.completed ⟨time⟩ ⟨_, hat, rfl⟩ with ⟨later, kind', hlater⟩
    have hplace := startOf_precede ⟨time⟩ hat hmark
    have hlast := horder _ _ _ _ _ _ hdone hlater (.inl (by omega)) (by omega)
    exact Nat.lt_trans (h.started _ _ _ hlater).2 hlast
  · -- What was started around the first node is the one that is started here, or around that.
    rcases h.exists_precedes hsame.symm hlt with ⟨again, first, hfirst, hagain, hbound⟩
    have htime := h.precededOnce _ _ _ _ hfirst hat hagain
    have hend := (h.started _ _ _ hdone).2
    omega

/-- Where nodes are completed in the order of time, they are in that of place just if the nodes
    around others are started in time. -/
theorem lastFirst_iff_stillOpen (hstacked : history.Stacked) :
    history.LastFirst ↔ history.StillOpen := by
  refine ⟨h.stillOpen_of_lastFirst, fun hopen => ?_⟩
  rintro outer inner time later kind kind' hat hlater (hstart | ⟨hsame, hlt⟩) hless
  · exact h.lt_of_stacked hstacked hopen hat hlater hstart hless
  · rcases h.exists_precedes hsame.symm hlt with ⟨around, completed, hprecedes, rfl, hle⟩
    rcases h.preceded _ _ hprecedes with ⟨earlier, hearlier, hcompletes⟩
    have htime := h.once _ _ _ _ _ hlater hcompletes
    have hmore := (h.started _ _ _ hat).2
    omega

end Tidy

/-- A node is started around one that is inside another node when that one has been completed. -/
def overtaking : History :=
  let tok : Token := ⟨[], .variableName, "$a".toList, []⟩
  [.start, .start, .start, .token tok, .complete ⟨2⟩ .variable, .complete ⟨1⟩ .parenExpr,
    .precede ⟨⟨2⟩, .variable⟩, .token tok, .complete ⟨6⟩ .binaryExpr, .complete ⟨0⟩ .sourceFile]

/-- The order of time alone is not enough. -/
theorem not_lastFirst_overtaking :
    overtaking.Tidy ∧ overtaking.Stacked ∧ ¬ overtaking.LastFirst := by
  refine ⟨by decide, by decide, fun horder => ?_⟩
  have hat : overtaking.PrecedesAt 6 ⟨⟨2⟩, .variable⟩ := rfl
  have houter : overtaking.startOf ⟨1⟩ = 1 := startOf_start ⟨1⟩ rfl
  have hfirst : overtaking.startOf ⟨2⟩ = 2 := startOf_start ⟨2⟩ rfl
  have hinner : overtaking.startOf ⟨6⟩ = 2 := (startOf_precede ⟨6⟩ hat (by decide)).trans hfirst
  have hlt := horder ⟨1⟩ ⟨6⟩ 5 8 .parenExpr .binaryExpr rfl rfl (.inl (by omega)) (by omega)
  omega

end History

end Log

end PhpAssist

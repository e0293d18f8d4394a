import PhpAssist.Proofs.Arrangements
import PhpAssist.Proofs.ForwardLinks

/-!
# The order of the brackets

The brackets of a history stand in the order of the text: a node is opened where it starts, a token
stands where it was read, and a node is closed where it was completed. Where several nodes start at
one place the one that was started last comes first.

Nothing else is needed to see what tree they are the brackets of. A tidy history has both brackets
of every node in this order, and nodes that are completed in the order opposite to the one in which
they start have theirs nested. What the first marker stands for is around the rest either way.

## Main definitions

* `History.timeOf`: The place of a bracket among the operations.
* `History.Before`: The order of the brackets.

## Theorems

* `History.bracketsAt_cases`: What an operation says.
* `Tidy.pairwise_brackets`: The brackets stand in their order.
* `Tidy.exists_blank`: They are those of a sketch, if it does not matter which node is closed.
* `Tidy.exists_row`: When they are those of a sketch.
-/

namespace PhpAssist

namespace Log

/-- When the node was started that is opened. -/
def Bracket.rank : Bracket → Nat
  | .opens marker => marker.position
  | _ => 0

namespace History

variable {history : History}

/-- When the node of a marker is completed. -/
def endOf (history : History) (marker : Marker) : Nat :=
  history.findIdx fun op => (op.kindFor? marker).isSome

/-- The place of a bracket among the operations. -/
def timeOf (history : History) : Bracket → Nat
  | .opens marker => history.startOf marker
  | .reads time _ => time
  | .closes marker => history.endOf marker

/-- The order of brackets: by their places and, where several nodes start at one place, the node
    that was started last first. -/
def Before (history : History) (first second : Bracket) : Prop :=
  history.timeOf first < history.timeOf second ∨
    (history.timeOf first = history.timeOf second ∧ second.rank < first.rank)

instance decidableBefore : DecidableRel history.Before :=
  fun _ _ => inferInstanceAs (Decidable (_ ∨ _))

instance isStrictOrder_before : IsStrictOrder Bracket history.Before where
  irrefl bracket h := by
    rcases h with h | ⟨_, h⟩
    · exact Nat.lt_irrefl _ h
    · exact Nat.lt_irrefl _ h
  trans first second third h hmore := by
    rcases h with h | ⟨h, hrank⟩
    · rcases hmore with hmore | ⟨hmore, _⟩
      · exact .inl (Nat.lt_trans h hmore)
      · exact .inl (hmore ▸ h)
    · rcases hmore with hmore | ⟨hmore, hrank'⟩
      · exact .inl (h ▸ hmore)
      · exact .inr ⟨h.trans hmore, Nat.lt_trans hrank' hrank⟩

/-- What an operation says: a node is opened that starts there, a token is read or a node is
    completed. -/
theorem bracketsAt_cases {time : Nat} {bracket : Bracket}
    (hmem : bracket ∈ history.bracketsAt time) :
    (∃ marker, bracket = .opens marker ∧ history.Starts marker ∧ history.startOf marker = time) ∨
      (∃ tok, bracket = .reads time tok ∧ history[time]? = some (.token tok)) ∨
      ∃ marker kind, bracket = .closes marker ∧ history.CompletesAt time marker kind := by
  rw [bracketsAt] at hmem
  split at hmem
  · rename_i hop
    have hplain := startOf_start ⟨time⟩ hop
    rcases List.mem_map.mp hmem with ⟨marker, hmarker, rfl⟩
    -- The node itself, or one that was put around it later and so starts here as well.
    rcases List.mem_cons.mp (List.mem_reverse.mp hmarker) with rfl | hmarker
    · exact .inl ⟨_, rfl, ⟨_, hop, rfl⟩, hplain⟩
    · exact .inl ⟨_, rfl, starts_of_mem_around hmarker, (mem_around.mp hmarker).1.trans hplain⟩
  · rename_i hop
    exact .inr (.inl ⟨_, List.mem_singleton.mp hmem, hop⟩)
  · rename_i hop
    exact .inr (.inr ⟨_, _, List.mem_singleton.mp hmem, hop⟩)
  · exact absurd hmem List.not_mem_nil

theorem closes_mem_brackets {marker : Marker} :
    .closes marker ∈ history.brackets ↔ ∃ time kind, history.CompletesAt time marker kind := by
  rw [brackets, List.mem_flatMap]
  constructor
  · rintro ⟨time, _, hmem⟩
    -- Only a completion makes a closing bracket.
    rcases bracketsAt_cases hmem with ⟨_, heq, _⟩ | ⟨_, heq, _⟩ | ⟨_, kind, heq, hat⟩
    · exact Bracket.noConfusion heq
    · exact Bracket.noConfusion heq
    · injection heq with heq
      rw [heq]
      exact ⟨time, kind, hat⟩
  · rintro ⟨time, kind, hat⟩
    have hlt := (List.getElem?_eq_some_iff.mp hat).1
    refine ⟨time, List.mem_range.mpr hlt, ?_⟩
    rw [bracketsAt, hat]
    exact List.mem_singleton_self _

theorem token_of_reads {time : Nat} {tok : Token} (hmem : .reads time tok ∈ history.brackets) :
    history[time]? = some (.token tok) := by
  rcases List.mem_flatMap.mp hmem with ⟨other, _, hmem⟩
  rcases bracketsAt_cases hmem with ⟨_, heq, _⟩ | ⟨_, heq, hop⟩ | ⟨_, _, heq, _⟩
  · exact Bracket.noConfusion heq
  · injection heq with htime htok
    rw [htime, htok, hop]
  · exact Bracket.noConfusion heq

namespace Tidy

variable (h : history.Tidy)
include h

/-! ## Brackets and their places -/

theorem endOf_eq {time : Nat} {marker : Marker} {kind : Kind}
    (hat : history.CompletesAt time marker kind) : history.endOf marker = time := by
  rcases List.getElem?_eq_some_iff.mp hat with ⟨hlt, hop⟩
  refine (List.findIdx_eq hlt).mpr ⟨?_, fun other hless => ?_⟩
  · rw [hop, Operation.kindFor?, if_pos rfl, Option.isSome_some]
  · rw [Bool.eq_false_iff]
    intro hsome
    rcases Option.isSome_iff_exists.mp hsome with ⟨kind', hkind⟩
    have hother : history.CompletesAt other marker kind' :=
      List.getElem?_eq_some_iff.mpr
        ⟨Nat.lt_trans hless hlt, Operation.kindFor?_eq_some hkind⟩
    exact absurd (h.once _ _ _ _ _ hother hat) (Nat.ne_of_lt hless)

theorem timeOf_eq {time : Nat} {bracket : Bracket} (hmem : bracket ∈ history.bracketsAt time) :
    history.timeOf bracket = time := by
  rcases bracketsAt_cases hmem with ⟨_, rfl, _, hstart⟩ | ⟨_, rfl, _⟩ | ⟨_, _, rfl, hat⟩
  · exact hstart
  · rfl
  · exact h.endOf_eq hat

/-- Something stands in front of where a node is closed just if its place is before. -/
theorem before_closes_iff (bracket : Bracket) {time : Nat} {marker : Marker} {kind : Kind}
    (hat : history.CompletesAt time marker kind) (hne : history.timeOf bracket ≠ time) :
    history.Before bracket (.closes marker) ↔ history.timeOf bracket < time := by
  rw [Before, timeOf, h.endOf_eq hat]
  omega

theorem opens_mem_brackets {marker : Marker} :
    .opens marker ∈ history.brackets ↔ history.Starts marker := by
  rw [brackets, List.mem_flatMap]
  constructor
  · rintro ⟨time, _, hmem⟩
    rcases bracketsAt_cases hmem with ⟨_, heq, hstarts, _⟩ | ⟨_, heq, _⟩ | ⟨_, _, heq, _⟩
    · injection heq with heq
      rwa [heq]
    · exact Bracket.noConfusion heq
    · exact Bracket.noConfusion heq
  · intro hstarts
    have hop := h.start_at_startOf hstarts
    have hplain := startOf_start ⟨history.startOf marker⟩ hop
    have hlt := Nat.lt_of_le_of_lt (history.startOf_le marker) (position_lt hstarts)
    refine ⟨_, List.mem_range.mpr hlt, ?_⟩
    rw [bracketsAt, hop]
    refine List.mem_map_of_mem (List.mem_reverse.mpr ?_)
    -- A node starts where it was started, or where what it goes around was.
    rcases Nat.eq_or_lt_of_le (history.startOf_le marker) with heq | hlt
    · rw [heq]
      exact List.mem_cons_self
    · exact List.mem_cons_of_mem _ (mem_around.mpr ⟨hplain.symm, hlt, position_lt hstarts⟩)

/-! ## The brackets in their order -/

theorem pairwise_brackets : history.brackets.Pairwise history.Before := by
  refine List.pairwise_flatMap.mpr ⟨fun time _ => ?_, ?_⟩
  · rw [bracketsAt]
    split
    · -- Of the nodes that start here the one that was started last comes first.
      rename_i hop
      have hplain := startOf_start ⟨time⟩ hop
      rw [List.pairwise_map, List.pairwise_reverse, List.pairwise_cons]
      refine ⟨fun outer houter => ?_, ?_⟩
      · rcases mem_around.mp houter with ⟨hsame, hlt, _⟩
        exact .inr ⟨hsame, hlt⟩
      · have hsorted : (history.around ⟨time⟩).Pairwise fun inner outer =>
            inner.position < outer.position := by
          rw [around, List.pairwise_map]
          exact List.Pairwise.filter _ List.pairwise_lt_range'
        refine hsorted.imp_of_mem fun hinner houter hlt => .inr ⟨?_, hlt⟩
        exact (mem_around.mp houter).1.trans (mem_around.mp hinner).1.symm
    · exact List.pairwise_singleton _ _
    · exact List.pairwise_singleton _ _
    · exact List.Pairwise.nil
  -- Brackets of different times are in the order of the times.
  · refine List.pairwise_lt_range.imp fun hlt first hfirst second hsecond => .inl ?_
    rw [h.timeOf_eq hfirst, h.timeOf_eq hsecond]
    exact hlt

/-- Every bracket has its partner. -/
theorem partnered : Sketch.Partnered history.Before history.brackets where
  pairwise := h.pairwise_brackets
  closes marker hmem := closes_mem_brackets.mpr (h.completed marker (h.opens_mem_brackets.mp hmem))
  opens marker hmem := by
    rcases closes_mem_brackets.mp hmem with ⟨time, kind, hat⟩
    exact h.opens_mem_brackets.mpr (h.started _ _ _ hat).1
  ordered marker hmem := by
    rcases h.completed marker (h.opens_mem_brackets.mp hmem) with ⟨time, kind, hat⟩
    refine .inl ?_
    rw [timeOf, timeOf, h.endOf_eq hat]
    exact Nat.lt_of_le_of_lt (history.startOf_le marker) (h.started _ _ _ hat).2

/-- What is opened between two partners is closed there if what starts last is completed first. -/
theorem arranged (horder : history.LastFirst) :
    Sketch.Arranged history.Before history.brackets where
  toPartnered := h.partnered
  nested outer inner houter hinner hstart hend := by
    have hinner := h.opens_mem_brackets.mp hinner
    rcases h.completed outer (h.opens_mem_brackets.mp houter) with ⟨time, kind, hat⟩
    rcases h.completed inner hinner with ⟨later, kind', hlater⟩
    have hless := (h.before_closes_iff (.opens inner) hat
      (h.startOf_ne hinner hat Operation.noConfusion)).mp hend
    refine .inl ?_
    rw [timeOf, timeOf, h.endOf_eq hat, h.endOf_eq hlater]
    exact horder outer inner time later kind kind' hat hlater hstart hless

/-! ## The outermost node -/

/-- No node is started around the first one. -/
theorem around_first : history.around ⟨0⟩ = [] := by
  refine List.eq_nil_iff_forall_not_mem.mpr fun outer hmem => ?_
  rcases mem_around.mp hmem with ⟨hsame, hlt, _⟩
  rcases h.exists_precedes hsame.symm hlt with ⟨time, completed, hat, hmark, _⟩
  rcases h.preceded time completed hat with ⟨earlier, hless, hearlier⟩
  -- It would be completed before the last operation, and by that again.
  rcases h.last with ⟨kind, hlast⟩
  rw [List.getLast?_eq_getElem?] at hlast
  rw [hmark] at hearlier
  have htime := h.once _ _ _ _ _ hearlier hlast
  have hlength := (List.getElem?_eq_some_iff.mp hat).1
  omega

/-- The first node is around everything. -/
theorem exists_inside :
    ∃ inside, history.brackets = .opens ⟨0⟩ :: (inside ++ [Bracket.closes ⟨0⟩]) := by
  have hhead : history[0]? = some .start := by
    rw [← List.head?_eq_getElem?]
    exact h.first
  rcases h.last with ⟨kind, hlast⟩
  rw [List.getLast?_eq_getElem?] at hlast
  have hstarted := (h.started _ _ _ hlast).2
  -- The first and the last operation are different ones.
  have hrange : List.range history.length =
      0 :: (List.range' 1 (history.length - 2) ++ [history.length - 1]) := by
    have hconcat := @List.range'_1_concat 1 (history.length - 2)
    rw [show 1 + (history.length - 2) = history.length - 1 by omega] at hconcat
    rw [← hconcat, List.range_eq_range', ← Nat.zero_add 1, ← List.range'_succ,
      show history.length - 2 + (0 + 1) + 1 = history.length by omega]
  have hfirst : history.bracketsAt 0 = [.opens ⟨0⟩] := by
    rw [bracketsAt, hhead, h.around_first]
    rfl
  have hclose : history.bracketsAt (history.length - 1) = [Bracket.closes ⟨0⟩] := by
    rw [bracketsAt, hlast]
  refine ⟨(List.range' 1 (history.length - 2)).flatMap history.bracketsAt, ?_⟩
  rw [brackets, hrange, List.flatMap_cons, List.flatMap_append, List.flatMap_singleton, hfirst,
    hclose, List.singleton_append]

/-- The brackets are those of a sketch, if it does not matter which of the nodes is closed. -/
theorem exists_blank : ∃ children, (Sketch.node ⟨0⟩ children).brackets.map Bracket.blank =
    history.brackets.map Bracket.blank := by
  rcases h.exists_inside with ⟨inside, hinside⟩
  have hpartnered := h.partnered
  rw [hinside] at hpartnered ⊢
  rcases hpartnered.between_ends.exists_blank with ⟨row, hrow⟩
  refine ⟨row, ?_⟩
  rw [Sketch.brackets, List.map_cons, List.map_cons, List.map_append, List.map_append, hrow]

/-- Where what starts last is completed first, the brackets are those of a sketch. -/
theorem exists_row (horder : history.LastFirst) :
    ∃ children, (Sketch.node ⟨0⟩ children).brackets = history.brackets := by
  rcases h.exists_inside with ⟨inside, hinside⟩
  have harranged := h.arranged horder
  rw [hinside] at harranged ⊢
  rcases harranged.between.exists_row with ⟨row, hrow⟩
  refine ⟨row, ?_⟩
  rw [Sketch.brackets, hrow]

end Tidy

end History

end Log

end PhpAssist

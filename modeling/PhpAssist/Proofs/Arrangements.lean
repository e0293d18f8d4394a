import Mathlib.Data.List.Perm.Subperm
import Mathlib.Order.Defs.Unbundled
import PhpAssist.Proofs.Sketches

/-!
# Arrangements of brackets

When is a row of brackets that of a row of sketches? The brackets here stand in an order that is
known, and what is asked of them is said by the order: that a node is opened and closed, the former
first, makes a row `Partnered`, and that a node that is opened between two partners is closed
between them makes it `Arranged`.

Partnered rows are those of sketches up to which node it is that a bracket closes, and arranged rows
are so exactly. Both follow from one cut: what stands between the first bracket and its partner is
told by the order alone, and it is partnered or arranged again.

## Main definitions

* `Sketch.Partnered`: Every bracket has its partner.
* `Sketch.Arranged`: What is opened between two partners is closed between them.

## Theorems

* `mem_inside_iff`, `filter_eq_inside`: What stands between two members of a row in order.
* `Partnered.exists_blank`: Rows with partners are those of sketches, blank.
* `Arranged.exists_row`: Arranged rows are those of sketches.
-/

namespace PhpAssist

namespace Log

/-! ## Rows in an order -/

section

variable {α : Type} {before : α → α → Prop} [IsStrictOrder α before]
  {front inside behind : List α} {first last : α}

/-- What is between two members of a row stands behind the one and in front of the other. -/
theorem mem_inside_iff
    (h : (front ++ first :: (inside ++ last :: behind)).Pairwise before) (x : α) :
    x ∈ inside ↔ x ∈ front ++ first :: (inside ++ last :: behind) ∧ before first x ∧
      before x last := by
  have hfront := List.pairwise_append.mp h
  have hfirst := List.pairwise_cons.mp hfront.2.1
  have hinside := List.pairwise_append.mp hfirst.2
  have hlast := List.pairwise_cons.mp hinside.2.1
  constructor
  · intro hmem
    refine ⟨?_, hfirst.1 x (List.mem_append_left _ hmem),
      hinside.2.2 x hmem last List.mem_cons_self⟩
    exact List.mem_append_right _ (List.mem_cons_of_mem _ (List.mem_append_left _ hmem))
  · rintro ⟨hmem, hafter, hless⟩
    -- The order excludes every other place in the list.
    rcases List.mem_append.mp hmem with hmem | hmem
    · exact absurd (hfront.2.2 x hmem first List.mem_cons_self) (asymm hafter)
    rcases List.mem_cons.mp hmem with rfl | hmem
    · exact absurd hafter (irrefl _)
    rcases List.mem_append.mp hmem with hmem | hmem
    · exact hmem
    rcases List.mem_cons.mp hmem with rfl | hmem
    · exact absurd hless (irrefl _)
    · exact absurd (hlast.1 x hmem) (asymm hless)

/-- What is between two members of a row, told by the order alone. -/
theorem filter_eq_inside [DecidableRel before]
    (h : (front ++ first :: (inside ++ last :: behind)).Pairwise before) :
    (front ++ first :: (inside ++ last :: behind)).filter
      (fun x => before first x ∧ before x last) = inside := by
  have hfront := List.pairwise_append.mp h
  have hfirst := List.pairwise_cons.mp hfront.2.1
  have hinside := List.pairwise_append.mp hfirst.2
  have hlast := List.pairwise_cons.mp hinside.2.1
  have hbefore : front.filter (fun x => before first x ∧ before x last) = [] :=
    List.filter_eq_nil_iff.mpr fun x hmem hbetween =>
      asymm (of_decide_eq_true hbetween).1 (hfront.2.2 x hmem first List.mem_cons_self)
  have hbetween : inside.filter (fun x => before first x ∧ before x last) = inside :=
    List.filter_eq_self.mpr fun x hmem => decide_eq_true
      ⟨hfirst.1 x (List.mem_append_left _ hmem), hinside.2.2 x hmem last List.mem_cons_self⟩
  have hbehind : behind.filter (fun x => before first x ∧ before x last) = [] :=
    List.filter_eq_nil_iff.mpr fun x hmem hbetween =>
      asymm (of_decide_eq_true hbetween).2 (hlast.1 x hmem)
  rw [List.filter_append, hbefore, List.nil_append, List.filter_cons_of_neg, List.filter_append,
    hbetween, List.filter_cons_of_neg, hbehind, List.append_nil]
  · exact fun hlast => irrefl _ (of_decide_eq_true hlast).2
  · exact fun hfirst => irrefl _ (of_decide_eq_true hfirst).1

/-- What is behind a member of a row. -/
theorem mem_behind_iff (h : (front ++ last :: behind).Pairwise before) (x : α) :
    x ∈ behind ↔ x ∈ front ++ last :: behind ∧ before last x := by
  have hfront := List.pairwise_append.mp h
  have hlast := List.pairwise_cons.mp hfront.2.1
  constructor
  · intro hmem
    exact ⟨List.mem_append_right _ (List.mem_cons_of_mem _ hmem), hlast.1 x hmem⟩
  · rintro ⟨hmem, hafter⟩
    rcases List.mem_append.mp hmem with hmem | hmem
    · exact absurd (hfront.2.2 x hmem last List.mem_cons_self) (asymm hafter)
    rcases List.mem_cons.mp hmem with rfl | hmem
    · exact absurd hafter (irrefl _)
    · exact hmem

theorem nodup_of_pairwise {row : List α} (h : row.Pairwise before) : row.Nodup := by
  refine h.imp fun hbefore heq => ?_
  rw [heq] at hbefore
  exact irrefl _ hbefore

end

/-- Two members of a row without repetitions stand in one order only. -/
theorem not_sublist_swap {α : Type} {first second : α} {row : List α} (hnodup : row.Nodup)
    (h : [first, second].Sublist row) : ¬ [second, first].Sublist row := by
  intro hswap
  rcases List.cons_sublist_iff.mp h with ⟨front, behind, rfl, hfirst, hsecond⟩
  rcases List.cons_sublist_iff.mp hswap with ⟨front', behind', heq, hsecond', hfirst'⟩
  have hsecond := List.singleton_sublist.mp hsecond
  have hfirst' := List.singleton_sublist.mp hfirst'
  have hne := (List.nodup_append.mp hnodup).2.2
  rcases List.append_eq_append_iff.mp heq with ⟨more, rfl, rfl⟩ | ⟨more, rfl, rfl⟩
  · exact hne first hfirst first (List.mem_append_right _ hfirst') rfl
  · exact hne second (List.mem_append_left _ hsecond') second hsecond rfl

namespace Sketch

/-! ## Brackets with their partners -/

/-- Brackets in their order, every one with its partner. -/
structure Partnered (before : Bracket → Bracket → Prop) (writing : List Bracket) : Prop where
  pairwise : writing.Pairwise before
  closes : ∀ marker, .opens marker ∈ writing → .closes marker ∈ writing
  opens : ∀ marker, .closes marker ∈ writing → .opens marker ∈ writing
  ordered : ∀ marker, .opens marker ∈ writing → before (.opens marker) (.closes marker)

/-- What is opened between two partners is closed between them. -/
structure Arranged (before : Bracket → Bracket → Prop) (writing : List Bracket) : Prop extends
    Partnered before writing where
  nested : ∀ outer inner, .opens outer ∈ writing → .opens inner ∈ writing →
    before (.opens outer) (.opens inner) → before (.opens inner) (.closes outer) →
    before (.closes inner) (.closes outer)

variable {before : Bracket → Bracket → Prop} {writing inside behind : List Bracket}
  {marker : Marker}

theorem Arranged.of_cons {time : Nat} {tok : Token}
    (h : Arranged before (.reads time tok :: writing)) : Arranged before writing where
  pairwise := h.pairwise.of_cons
  closes other hmem :=
    List.mem_of_ne_of_mem Bracket.noConfusion (h.closes other (List.mem_cons_of_mem _ hmem))
  opens other hmem :=
    List.mem_of_ne_of_mem Bracket.noConfusion (h.opens other (List.mem_cons_of_mem _ hmem))
  ordered other hmem := h.ordered other (List.mem_cons_of_mem _ hmem)
  nested outer inner houter hinner :=
    h.nested outer inner (List.mem_cons_of_mem _ houter) (List.mem_cons_of_mem _ hinner)

section

variable [IsStrictOrder Bracket before]

theorem Partnered.mem_between
    (h : Partnered before (.opens marker :: (inside ++ .closes marker :: behind)))
    (bracket : Bracket) :
    bracket ∈ inside ↔ bracket ∈ .opens marker :: (inside ++ .closes marker :: behind) ∧
      before (.opens marker) bracket ∧ before bracket (.closes marker) :=
  @mem_inside_iff _ _ _ [] _ _ _ _ h.pairwise bracket

theorem Partnered.mem_after
    (h : Partnered before (.opens marker :: (inside ++ .closes marker :: behind)))
    (bracket : Bracket) :
    bracket ∈ behind ↔ bracket ∈ .opens marker :: (inside ++ .closes marker :: behind) ∧
      before (.closes marker) bracket :=
  @mem_behind_iff _ _ _ (.opens marker :: inside) _ _ h.pairwise bracket

/-- What stands between two partners has its partners there, if what is opened there is closed
    there. -/
theorem Partnered.between
    (h : Partnered before (.opens marker :: (inside ++ .closes marker :: behind)))
    (hinside : ∀ inner, .opens inner ∈ inside → before (.closes inner) (.closes marker)) :
    Partnered before inside := by
  refine ⟨(List.pairwise_append.mp h.pairwise.of_cons).1, fun other hother => ?_,
    fun other hother => ?_, fun other hother => h.ordered other ((h.mem_between _).mp hother).1⟩
  -- Both brackets of a pair lie between, for what opens inside closes inside.
  · rcases (h.mem_between _).mp hother with ⟨hwhole, hafter, _⟩
    exact (h.mem_between _).mpr ⟨h.closes other hwhole,
      IsTrans.trans _ _ _ hafter (h.ordered other hwhole), hinside other hother⟩
  · rcases (h.mem_between _).mp hother with ⟨hwhole, _, hless⟩
    have hopens := h.opens other hwhole
    refine (h.mem_between _).mpr ⟨hopens, ?_, IsTrans.trans _ _ _ (h.ordered other hopens) hless⟩
    rcases List.mem_cons.mp hopens with heq | hlater
    · injection heq with heq
      rw [heq] at hless
      exact absurd hless (irrefl _)
    · exact (List.pairwise_cons.mp h.pairwise).1 _ hlater

/-- What stands between two partners at the ends of a row has its partners there. -/
theorem Partnered.between_ends
    (h : Partnered before (.opens marker :: (inside ++ [Bracket.closes marker]))) :
    Partnered before inside := by
  refine h.between fun inner hinner => ?_
  rcases (h.mem_between _).mp hinner with ⟨hwhole, hafter, _⟩
  have hcloses := List.mem_of_ne_of_mem Bracket.noConfusion (h.closes inner hwhole)
  rcases List.mem_append.mp hcloses with hcloses | hcloses
  · exact ((h.mem_between _).mp hcloses).2.2
  · injection List.mem_singleton.mp hcloses with heq
    rw [heq] at hafter
    exact absurd hafter (irrefl _)

theorem Arranged.between
    (h : Arranged before (.opens marker :: (inside ++ .closes marker :: behind))) :
    Arranged before inside := by
  refine ⟨h.toPartnered.between fun inner hinner => ?_, fun outer inner houter hinner =>
    h.nested outer inner ((h.mem_between _).mp houter).1 ((h.mem_between _).mp hinner).1⟩
  rcases (h.mem_between _).mp hinner with ⟨hwhole, hafter, hless⟩
  exact h.nested marker inner List.mem_cons_self hwhole hafter hless

theorem Arranged.after
    (h : Arranged before (.opens marker :: (inside ++ .closes marker :: behind))) :
    Arranged before behind := by
  refine ⟨⟨(List.pairwise_append.mp h.pairwise.of_cons).2.1.of_cons, fun other hother => ?_,
    fun other hother => ?_, fun other hother => h.ordered other ((h.mem_after _).mp hother).1⟩,
    fun outer inner houter hinner =>
      h.nested outer inner ((h.mem_after _).mp houter).1 ((h.mem_after _).mp hinner).1⟩
  · rcases (h.mem_after _).mp hother with ⟨hwhole, hafter⟩
    exact (h.mem_after _).mpr
      ⟨h.closes other hwhole, IsTrans.trans _ _ _ hafter (h.ordered other hwhole)⟩
  · rcases (h.mem_after _).mp hother with ⟨hwhole, hafter⟩
    have hopens := h.opens other hwhole
    refine (h.mem_after _).mpr ⟨hopens, ?_⟩
    -- A node that is opened between the two is closed there.
    rcases List.mem_cons.mp hopens with heq | hopens
    · injection heq with heq
      rw [heq] at hafter
      exact absurd hafter (irrefl _)
    rcases List.mem_append.mp hopens with hopens | hopens
    · rcases (h.mem_between _).mp hopens with ⟨hwhole, hfirst, hlast⟩
      have hless := h.nested marker other List.mem_cons_self hwhole hfirst hlast
      exact absurd hafter (asymm hless)
    · have hbehind := List.mem_of_ne_of_mem Bracket.noConfusion hopens
      exact ((h.mem_after _).mp hbehind).2

/-! ## Their sketches -/

/-- Brackets with their partners are those of a row of sketches, if it does not matter which of the
    nodes is closed. -/
theorem Partnered.exists_blank (h : Partnered before writing) :
    ∃ row, (bracketsOf row).map Bracket.blank = writing.map Bracket.blank := by
  have hnodup : writing.Nodup := nodup_of_pairwise h.pairwise
  have hfront (front : List Bracket) (hpart : front <+: writing) :
      (Bracket.closed front).length ≤ (Bracket.opened front).length + 0 := by
    rcases hpart with ⟨behind, rfl⟩
    have hafter := (List.pairwise_append.mp h.pairwise).2.2
    refine (List.subperm_of_subset (Bracket.nodup_closed (List.nodup_append.mp hnodup).1)
      fun marker hmarker => Bracket.mem_opened.mpr ?_).length_le
    have hcloses := Bracket.mem_closed.mp hmarker
    have hopens := h.opens marker (List.mem_append_left _ hcloses)
    -- Otherwise it is closed in front of where it is opened.
    refine (List.mem_append.mp hopens).resolve_right fun hbehind => ?_
    exact asymm (hafter _ hcloses _ hbehind) (h.ordered marker hopens)
  have hwhole : (Bracket.closed writing).length = (Bracket.opened writing).length + 0 := by
    refine Nat.le_antisymm (hfront writing List.prefix_rfl) ?_
    refine (List.subperm_of_subset (Bracket.nodup_opened hnodup) fun marker hmarker => ?_).length_le
    exact Bracket.mem_closed.mpr (h.closes marker (Bracket.mem_opened.mp hmarker))
  rcases exists_rows writing 0 hfront hwhole with ⟨row, rows, hlength, hrow⟩
  rw [List.length_eq_zero_iff.mp hlength, List.flatMap_nil, List.append_nil] at hrow
  exact ⟨row, hrow.symm⟩

/-- Brackets that are arranged are those of a row of sketches. -/
theorem Arranged.exists_row (h : Arranged before writing) : ∃ row, bracketsOf row = writing := by
  induction hlength : writing.length using Nat.strongRecOn generalizing writing with
  | ind length ih =>
    subst hlength
    rcases writing with _ | ⟨marker | ⟨time, tok⟩ | marker, writing⟩
    · exact ⟨[], rfl⟩
    · have hcloses := List.mem_of_ne_of_mem Bracket.noConfusion (h.closes marker List.mem_cons_self)
      rcases List.mem_iff_append.mp hcloses with ⟨inside, behind, rfl⟩
      -- The first node ends at its partner. What is inside of it and what is behind it are shorter.
      simp only [List.length_cons, List.length_append] at ih
      rcases ih _ (by omega) h.between rfl with ⟨row, hrow⟩
      rcases ih _ (by omega) h.after rfl with ⟨more, hmore⟩
      refine ⟨.node marker row :: more, ?_⟩
      rw [bracketsOf, brackets, hrow, hmore, List.cons_append, List.append_assoc,
        List.singleton_append]
    · rcases ih _ (Nat.lt_succ_self _) h.of_cons rfl with ⟨row, hrow⟩
      refine ⟨.token time tok :: row, ?_⟩
      rw [bracketsOf, hrow]
      rfl
    · -- What is closed first was opened behind it.
      have hopens := List.mem_of_ne_of_mem Bracket.noConfusion (h.opens marker List.mem_cons_self)
      have hclosed := (List.pairwise_cons.mp h.pairwise).1 _ hopens
      exact absurd hclosed (asymm (h.ordered marker (List.mem_cons_of_mem _ hopens)))

end

end Sketch

end Log

end PhpAssist

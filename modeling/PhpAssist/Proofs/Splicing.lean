import PhpAssist.Edit
import PhpAssist.Proofs.ConcatPlan
import PhpAssist.Proofs.Frames
import PhpAssist.Proofs.TokensAt

/-!
# Edits carried out together

The edits of a change are carried out from left to right in one pass, after they were put in order
and each of them was compared with its neighbour. What they should do is told without any order: at
every offset the texts that were put there appear, and a character of the text appears unless an
edit replaces it. Two edits are in each other's way if both replace something and overlap, or if one
of them inserts strictly inside what the other replaces.

Comparing neighbours is enough because an edit never ends before it begins, so that the ends of the
edits in order are in order too as soon as each ends before the next begins. The order itself is
only asked to put insertions in front of a replacement at the same offset; edits that could stand
either way keep the order in which they were recorded, and edits at different offsets can be
recorded in any order.

## Main definitions

* `Edit.Collides`: Two edits in each other's way.
* `Edit.textsAt`, `Edit.isReplaced`, `Edit.together`: What some edits do, all at once.
* `Splice.Step`, `Splice.recorded`: Steps around a statement, and the edits they record.

## Theorems

* `Edit.disjoint_iff`: Comparing neighbours compares all edits.
* `Change.ofEdits_eq_error_iff`: Edits are refused just if two are in each other's way.
* `Edit.together_kept`, `Edit.together_edit`: What is done up to the first edit, and by it.
* `Edit.exists_cut`: An edit cuts a text in three.
* `Change.applyFrom_eq`: One pass does what the edits do all at once.
* `Parse.isBoundary_span`: Nodes begin where characters begin.
* `Splice.spliced_together`: What some steps around a statement do.
-/

namespace PhpAssist

open Text

/-- Characters begin in a text where they begin in what is behind its front. -/
theorem Text.isBoundary_append {front rest : Text} {offset : Nat} :
    IsBoundary (front ++ rest) (size front + offset) ↔ IsBoundary rest offset := by
  rw [IsBoundary, splitAt?_append, Option.isSome_map]
  rfl

namespace Edit

variable {a b edit : Edit} {edits more : List Edit} {offset : Nat}

/-! ## Edits in each other's way -/

/-- Whether an insertion lies strictly inside what another edit replaces. -/
def Inside (a b : Edit) : Prop :=
  a.isInsertion = true ∧ b.span.start < a.span.start ∧ a.span.start < b.span.stop

/-- Whether two edits are in each other's way: both replace something and overlap, or one inserts
    strictly inside what the other one replaces. -/
def Collides (a b : Edit) : Prop :=
  (a.isInsertion = false ∧ b.isInsertion = false ∧ a.span.start < b.span.stop ∧
    b.span.start < a.span.stop) ∨ a.Inside b ∨ b.Inside a

theorem Collides.symm (h : a.Collides b) : b.Collides a := by
  rcases h with ⟨ha, hb, hab, hba⟩ | h | h
  · exact .inl ⟨hb, ha, hba, hab⟩
  · exact .inr (.inr h)
  · exact .inr (.inl h)

theorem isInsertion_iff : edit.isInsertion = true ↔ edit.span.stop = edit.span.start := by
  rw [isInsertion, beq_iff_eq, Span.stop]
  omega

theorem precedes_iff : a.precedes b = true ↔ a.span.start < b.span.start ∨
    (a.span.start = b.span.start ∧ (a.isInsertion = true ∨ b.isInsertion = false)) := by
  simp only [precedes, Bool.or_eq_true, Bool.and_eq_true, decide_eq_true_eq, beq_iff_eq,
    Bool.not_eq_true']

theorem precedes_trans (a b c : Edit) (hab : a.precedes b = true) (hbc : b.precedes c = true) :
    a.precedes c = true := by
  rw [precedes_iff] at hab hbc ⊢
  rcases hab with hab | ⟨hab, hkinds⟩ <;> rcases hbc with hbc | ⟨hbc, hkinds'⟩
  · exact .inl (Nat.lt_trans hab hbc)
  · exact .inl (hbc ▸ hab)
  · exact .inl (hab ▸ hbc)
  · refine .inr ⟨hab.trans hbc, ?_⟩
    cases ha : a.isInsertion
    · refine .inr (hkinds'.resolve_left fun hb => ?_)
      rw [ha, hb] at hkinds
      exact absurd hkinds (by decide)
    · exact .inl rfl

theorem precedes_total (a b : Edit) : (a.precedes b || b.precedes a) = true := by
  rw [Bool.or_eq_true, precedes_iff, precedes_iff]
  rcases Nat.lt_trichotomy a.span.start b.span.start with h | h | h
  · exact .inl (.inl h)
  · cases ha : a.isInsertion
    · exact .inr (.inr ⟨h.symm, .inr rfl⟩)
    · exact .inl (.inr ⟨h, .inl rfl⟩)
  · exact .inr (.inl h)

/-- Where an edit stands among others: edits at one place keep the order in which they were
    recorded. -/
def place (edit : Edit) : Nat × Bool := (edit.span.start, edit.isInsertion)

/-- Edits that could stand either way are at one place. -/
theorem precedes_tie (a b : Edit) :
    a.place = b.place ↔ a.precedes b = true ∧ b.precedes a = true := by
  rw [precedes_iff, precedes_iff, place, place, Prod.mk.injEq]
  cases a.isInsertion <;> cases b.isInsertion <;>
    simp only [reduceCtorEq, and_true, and_false, or_false, or_true, or_self, false_iff,
      not_and] <;>
    omega

/-- Of two edits in order, the first ends before the second begins just if they are not in each
    other's way. -/
theorem stop_le_iff (h : a.precedes b = true) :
    a.span.stop ≤ b.span.start ↔ ¬ a.Collides b := by
  have hends (edit : Edit) : edit.span.start ≤ edit.span.stop := Nat.le_add_right _ _
  have ha := hends a
  have hb := hends b
  have hinserts (edit : Edit) := @isInsertion_iff edit
  rw [precedes_iff] at h
  rw [Collides, Inside, Inside]
  cases hka : a.isInsertion <;> cases hkb : b.isInsertion <;>
    have hsa := hinserts a <;> have hsb := hinserts b <;> rw [hka] at hsa <;> rw [hkb] at hsb <;>
    simp only [hka, hkb, reduceCtorEq, false_iff, true_iff, true_and, false_and, or_false, false_or,
      or_true, and_true, and_false] at h hsa hsb ⊢ <;> omega

/-- Comparing neighbours compares all edits. -/
theorem disjoint_iff : disjoint edits = true ↔
    edits.Pairwise fun a b => a.span.stop ≤ b.span.start := by
  induction edits with
  | nil => exact ⟨fun _ => .nil, fun _ => rfl⟩
  | cons a edits ih =>
    rcases edits with _ | ⟨b, more⟩
    · exact ⟨fun _ => List.pairwise_singleton _ _, fun _ => rfl⟩
    · rw [disjoint, Bool.and_eq_true, decide_eq_true_eq, ih, List.pairwise_cons (a := a)]
      constructor
      · rintro ⟨hab, hmore⟩
        refine ⟨fun c hc => ?_, hmore⟩
        -- What is behind the neighbour begins behind its end.
        rcases List.mem_cons.mp hc with rfl | hc
        · exact hab
        · have hbc := (List.pairwise_cons.mp hmore).1 c hc
          have hb : b.span.start ≤ b.span.stop := Nat.le_add_right _ _
          omega
      · exact fun ⟨hall, hmore⟩ => ⟨hall b List.mem_cons_self, hmore⟩

end Edit

namespace Change

open Edit

variable {edits : List Edit}

theorem pairwise_sorted (edits : List Edit) :
    (StableSort.sort precedes edits).Pairwise fun a b => a.precedes b = true :=
  StableSort.pairwise_sort precedes_trans precedes_total edits

/-- Edits in order are disjoint just if no two of them, as they were recorded, are in each other's
    way. -/
theorem disjoint_sorted : disjoint (StableSort.sort precedes edits) = true ↔
    edits.Pairwise fun a b => ¬ a.Collides b := by
  rw [disjoint_iff, ← (StableSort.sort_perm precedes edits).pairwise_iff
    fun h hba => h hba.symm]
  constructor
  · exact fun h => (h.and (pairwise_sorted edits)).imp fun ⟨hle, h⟩ => (stop_le_iff h).mp hle
  · exact fun h => (h.and (pairwise_sorted edits)).imp fun ⟨hnot, h⟩ => (stop_le_iff h).mpr hnot

/-- Edits are refused just if two of them are in each other's way. -/
theorem ofEdits_eq_error_iff : Change.ofEdits edits = .error (.mismatch .overlappingEdits) ↔
    ∃ (i j : Nat) (a b : Edit), i < j ∧ edits[i]? = some a ∧ edits[j]? = some b ∧
      a.Collides b := by
  have hrefused : Change.ofEdits edits = .error (.mismatch .overlappingEdits) ↔
      ¬ edits.Pairwise fun a b => ¬ a.Collides b := by
    rw [← disjoint_sorted, Change.ofEdits]
    split <;> simp_all only [reduceCtorEq, not_true_eq_false, not_false_eq_true]
  -- Two edits collide at some pair of places, in the order they were recorded.
  rw [hrefused, List.pairwise_iff_getElem]
  constructor
  · intro h
    push Not at h
    rcases h with ⟨i, j, hi, hj, hij, hcollides⟩
    exact ⟨i, j, _, _, hij, List.getElem?_eq_getElem hi, List.getElem?_eq_getElem hj, hcollides⟩
  · rintro ⟨i, j, a, b, hij, ha, hb, hcollides⟩ h
    rcases List.getElem?_eq_some_iff.mp ha with ⟨hi, rfl⟩
    rcases List.getElem?_eq_some_iff.mp hb with ⟨hj, rfl⟩
    exact h i j hi hj hij hcollides

end Change

namespace Edit

variable {a b edit : Edit} {edits more : List Edit} {offset : Nat} {text rest : Text}

/-! ## All edits at once -/

/-- What edits put at an offset: insertions in the order in which they were recorded, then what
    replaces the text that begins there. -/
def textsAt (edits : List Edit) (offset : Nat) : Text :=
  (edits.filter fun edit => edit.span.start = offset && edit.isInsertion).flatMap Edit.insert ++
    (edits.filter fun edit => edit.span.start = offset && !edit.isInsertion).flatMap Edit.insert

/-- Whether edits replace the character at an offset. -/
def isReplaced (edits : List Edit) (offset : Nat) : Bool :=
  edits.any fun edit => edit.span.start ≤ offset && offset < edit.span.stop

/-- What edits make of a text that begins at an offset, all at once. -/
def together (edits : List Edit) : Nat → Text → Text
  | offset, [] => textsAt edits offset
  | offset, c :: rest =>
    textsAt edits offset ++ (if isReplaced edits offset then [] else [c]) ++
      together edits (offset + c.utf8Size) rest

theorem textsAt_cons (edit : Edit) (more : List Edit) (offset : Nat)
    (h : edit.span.start ≠ offset) :
    textsAt (edit :: more) offset = textsAt more offset := by
  simp only [textsAt, List.filter_cons, h, decide_false, Bool.false_and, Bool.false_eq_true,
    if_false]

/-- Nothing is put where no edit begins. -/
theorem textsAt_eq_nil (h : ∀ edit ∈ edits, edit.span.start ≠ offset) :
    textsAt edits offset = [] := by
  induction edits with
  | nil => rfl
  | cons edit more ih =>
    rw [List.forall_mem_cons] at h
    rw [textsAt_cons edit more offset h.1, ih h.2]

theorem isReplaced_eq_false (h : ∀ edit ∈ edits, offset < edit.span.start ∨
    edit.span.stop ≤ offset) : isReplaced edits offset = false := by
  rw [isReplaced, List.any_eq_false]
  intro edit hedit
  rw [Bool.and_eq_true, decide_eq_true_eq, decide_eq_true_eq]
  have := h edit hedit
  omega

theorem isReplaced_here (hstart : edit.span.start ≤ offset) (hstop : offset < edit.span.stop) :
    isReplaced (edit :: more) offset = true := by
  rw [isReplaced, List.any_cons, decide_eq_true hstart, decide_eq_true hstop]
  rfl

theorem isReplaced_passed (hstop : edit.span.stop ≤ offset) :
    isReplaced (edit :: more) offset = isReplaced more offset := by
  rw [isReplaced, List.any_cons, decide_eq_false (Nat.not_lt.mpr hstop), Bool.and_false,
    Bool.false_or, isReplaced]

/-- Text in front of all edits is kept. -/
theorem together_kept (h : ∀ edit ∈ edits, offset + size text ≤ edit.span.start) :
    together edits offset (text ++ rest) = text ++ together edits (offset + size text) rest := by
  induction text generalizing offset with
  | nil => rfl
  -- No edit begins at this character or covers it.
  | cons c text ih =>
    have hc := Char.utf8Size_pos c
    rw [size_cons, ← Nat.add_assoc] at h ⊢
    rw [List.cons_append, together, ih h, textsAt_eq_nil fun edit hedit => ?_,
      isReplaced_eq_false fun edit hedit => ?_]
    · rfl
    · have := h edit hedit
      omega
    · have := h edit hedit
      omega

/-- An edit has no say where it is over. -/
theorem together_passed (hstart : edit.span.start < offset) (hstop : edit.span.stop ≤ offset) :
    together (edit :: more) offset text = together more offset text := by
  induction text generalizing offset with
  | nil => exact textsAt_cons edit more offset (by omega)
  | cons c text ih =>
    rw [together, together, ih (by omega) (by omega), textsAt_cons edit more offset (by omega),
      isReplaced_passed hstop]

/-- An insertion puts its text there, in front of what the edits behind it do. -/
theorem together_insertion (hinsertion : edit.isInsertion = true)
    (hstart : edit.span.start = offset) :
    together (edit :: more) offset text = edit.insert ++ together more offset text := by
  have hstop : edit.span.stop = offset := (isInsertion_iff.mp hinsertion).trans hstart
  -- What is inserted comes ahead of everything else at its place.
  have htexts : textsAt (edit :: more) offset = edit.insert ++ textsAt more offset := by
    simp only [textsAt, List.filter_cons, hstart, hinsertion, decide_true, Bool.and_self, if_true,
      Bool.not_true, Bool.and_false, Bool.false_eq_true, if_false, List.flatMap_cons,
      List.append_assoc]
  cases text with
  | nil => exact htexts
  | cons c text =>
    have hc := Char.utf8Size_pos c
    rw [together, together, htexts, together_passed (by omega) (by omega),
      isReplaced_passed (by omega)]
    simp only [List.append_assoc]

/-- Behind where a replacement begins, text is left out up to where it ends. -/
theorem together_inside (hstart : edit.span.start < offset)
    (hstop : edit.span.stop = offset + size text)
    (h : ∀ other ∈ more, edit.span.stop ≤ other.span.start) :
    together (edit :: more) offset (text ++ rest) = together more (offset + size text) rest := by
  induction text generalizing offset with
  | nil => exact together_passed hstart (by rw [hstop, size_nil]; exact Nat.le_refl _)
  -- The character is covered, and no other edit begins ahead of the end.
  | cons c text ih =>
    have hc := Char.utf8Size_pos c
    rw [size_cons, ← Nat.add_assoc] at hstop ⊢
    rw [List.cons_append, together, ih (by omega) hstop,
      textsAt_cons edit more offset (by omega), textsAt_eq_nil fun other hother => ?_,
      isReplaced_here (by omega) (by omega)]
    · rfl
    · have := h other hother
      omega

/-- A replacement puts its text where it begins, and leaves out what it replaces. -/
theorem together_replacement (hreplaces : edit.isInsertion = false)
    (hstart : edit.span.start = offset) (hstop : edit.span.stop = offset + size text)
    (h : ∀ other ∈ more, edit.span.stop ≤ other.span.start) :
    together (edit :: more) offset (text ++ rest) =
      edit.insert ++ together more (offset + size text) rest := by
  have hne : edit.span.stop ≠ edit.span.start := by
    rw [ne_eq, ← isInsertion_iff, hreplaces]
    exact Bool.false_ne_true
  -- A replacement covers at least one character, at which its text is put out.
  rcases text with _ | ⟨c, text⟩
  · exact absurd (by rw [hstop, hstart, size_nil, Nat.add_zero]) hne
  · have hc := Char.utf8Size_pos c
    rw [size_cons, ← Nat.add_assoc] at hstop ⊢
    have hrest : textsAt more offset = [] := textsAt_eq_nil fun other hother => by
      have := h other hother
      omega
    have htexts : textsAt (edit :: more) offset = edit.insert ++ textsAt more offset := by
      rw [textsAt, List.append_eq_nil_iff] at hrest
      simp only [textsAt, List.filter_cons, hstart, hreplaces, decide_true, Bool.and_false,
        Bool.false_eq_true, if_false, Bool.not_false, Bool.and_self, if_true, List.flatMap_cons,
        hrest.1, hrest.2, List.nil_append]
    rw [List.cons_append, together, htexts, hrest, isReplaced_here (by omega) (by omega),
      if_pos rfl, together_inside (by omega) hstop h, List.append_nil, List.append_nil]

/-- An edit puts its text where it begins, in place of what it replaces. -/
theorem together_edit (hstop : edit.span.stop = edit.span.start + size text)
    (h : ∀ other ∈ more, edit.span.stop ≤ other.span.start) :
    together (edit :: more) edit.span.start (text ++ rest) =
      edit.insert ++ together more edit.span.stop rest := by
  cases hkind : edit.isInsertion
  · rw [together_replacement hkind rfl hstop h, hstop]
  · have hempty : edit.span.stop = edit.span.start := isInsertion_iff.mp hkind
    have hnil : text = [] := by
      rcases text with _ | ⟨c, text⟩
      · rfl
      · have := size_pos (List.cons_ne_nil c text)
        omega
    rw [together_insertion hkind rfl, hnil, List.nil_append, hempty]

/-- An edit that begins and ends where characters do cuts a text in three. -/
theorem exists_cut {position : Nat} (hle : position ≤ edit.span.start)
    (hstart : IsBoundary text (edit.span.start - position))
    (hstop : IsBoundary text (edit.span.stop - position)) :
    ∃ kept old rest, text = kept ++ (old ++ rest) ∧ position + size kept = edit.span.start ∧
      size old = edit.span.length := by
  rcases Option.isSome_iff_exists.mp hstart with ⟨⟨kept, rest⟩, hcut⟩
  rcases splitAt?_some hcut with ⟨rfl, hkept⟩
  -- The text that is left begins where the edit does, and the edit ends in it.
  have hlength : edit.span.stop - position = size kept + edit.span.length := by
    rw [Span.stop]
    omega
  rw [hlength, isBoundary_append] at hstop
  rcases Option.isSome_iff_exists.mp hstop with ⟨⟨old, rest⟩, hcut⟩
  rcases splitAt?_some hcut with ⟨rfl, hold⟩
  exact ⟨kept, old, rest, rfl, by omega, hold⟩

/-! ## The order of edits -/

/-- Edits with one order at each offset have one order at each place. -/
theorem filter_place {other : List Edit}
    (h : ∀ offset, other.filter (fun edit => edit.span.start = offset) =
      edits.filter fun edit => edit.span.start = offset) (key : Nat × Bool) :
    other.filter (fun edit => edit.place = key) = edits.filter fun edit => edit.place = key := by
  have hsplit (row : List Edit) : row.filter (fun edit => edit.place = key) =
      (row.filter fun edit => edit.span.start = key.1).filter fun edit =>
        edit.isInsertion = key.2 := by
    rw [List.filter_filter]
    refine List.filter_congr fun edit _ => ?_
    rw [Bool.eq_iff_iff, Bool.and_eq_true, decide_eq_true_eq, decide_eq_true_eq, decide_eq_true_eq,
      Prod.ext_iff]
    exact and_comm
  rw [hsplit, hsplit, h]

/-- What edits do all at once is told by the edits at each place. -/
theorem together_congr {other : List Edit}
    (h : ∀ key, other.filter (fun edit => edit.place = key) =
      edits.filter fun edit => edit.place = key) (offset : Nat) (text : Text) :
    together other offset text = together edits offset text := by
  have hinsertions (row : List Edit) (offset : Nat) :
      row.filter (fun edit => edit.span.start = offset && edit.isInsertion) =
        row.filter fun edit => edit.place = (offset, true) := by
    refine List.filter_congr fun edit _ => ?_
    rw [Bool.eq_iff_iff, Bool.and_eq_true, decide_eq_true_eq, decide_eq_true_eq, Prod.ext_iff]
    exact Iff.rfl
  have hreplacements (row : List Edit) (offset : Nat) :
      row.filter (fun edit => edit.span.start = offset && !edit.isInsertion) =
        row.filter fun edit => edit.place = (offset, false) := by
    refine List.filter_congr fun edit _ => ?_
    rw [Bool.eq_iff_iff, Bool.and_eq_true, decide_eq_true_eq, decide_eq_true_eq, Bool.not_eq_true',
      Prod.ext_iff]
    exact Iff.rfl
  -- The text at an offset and whether it is replaced depend on the edits of that place only.
  have htexts (offset : Nat) : textsAt other offset = textsAt edits offset := by
    rw [textsAt, textsAt, hinsertions, hinsertions, hreplacements, hreplacements, h, h]
  have hmem (edit : Edit) : edit ∈ other ↔ edit ∈ edits :=
    ⟨StableSort.mem_of_filter place h, StableSort.mem_of_filter place fun key => (h key).symm⟩
  have hreplaced (offset : Nat) : isReplaced other offset = isReplaced edits offset := by
    rw [Bool.eq_iff_iff, isReplaced, isReplaced, List.any_eq_true, List.any_eq_true]
    exact exists_congr fun edit => and_congr_left fun _ => hmem edit
  induction text generalizing offset with
  | nil => exact htexts offset
  | cons c rest ih => rw [together, together, htexts, hreplaced, ih]

end Edit

namespace Change

open Edit

variable {edits other : List Edit} {change : Change} {text : Text}

/-- Carrying out edits in order, each where characters begin and end, does what they do all at once.
    The induction is on the edits that are left, for a text of which the first bytes are gone. -/
theorem applyFrom_eq {position : Nat}
    (hdisjoint : edits.Pairwise fun a b => a.precedes b = true ∧ a.span.stop ≤ b.span.start)
    (hfits : ∀ edit ∈ edits, position ≤ edit.span.start ∧
      IsBoundary text (edit.span.start - position) ∧ IsBoundary text (edit.span.stop - position)) :
    applyFrom position edits text = together edits position text := by
  induction edits generalizing position text with
  | nil =>
    have hnone := @together_kept [] position text [] (List.forall_mem_nil _)
    rw [List.append_nil] at hnone
    rw [applyFrom, hnone, together, textsAt_eq_nil (List.forall_mem_nil _), List.append_nil]
  | cons edit more ih =>
    have hbehind : ∀ other ∈ more, edit.span.stop ≤ other.span.start := fun other hother =>
      ((List.pairwise_cons.mp hdisjoint).1 other hother).2
    rcases hfits edit List.mem_cons_self with ⟨hle, hstart, hstop⟩
    rcases exists_cut hle hstart hstop with ⟨kept, old, rest, rfl, hkept, hold⟩
    have hends : edit.span.stop = edit.span.start + size old := by rw [hold, Span.stop]
    -- What the edits behind this one need of the text they also need of what is left of it.
    have hshift (offset : Nat) (h : edit.span.stop ≤ offset)
        (hboundary : IsBoundary (kept ++ (old ++ rest)) (offset - position)) :
        IsBoundary rest (offset - edit.span.stop) := by
      rw [show offset - position = size kept + (size old + (offset - edit.span.stop)) by omega,
        isBoundary_append, isBoundary_append] at hboundary
      exact hboundary
    have hmore : applyFrom edit.span.stop more rest = together more edit.span.stop rest := by
      refine ih (List.pairwise_cons.mp hdisjoint).2 fun other hother => ?_
      rcases hfits other (List.mem_cons_of_mem _ hother) with ⟨_, hstart, hstop⟩
      have hafter := hbehind other hother
      have hwide : other.span.start ≤ other.span.stop := Nat.le_add_right _ _
      exact ⟨hafter, hshift _ hafter hstart, hshift _ (by omega) hstop⟩
    have hbefore : ∀ other ∈ edit :: more, position + size kept ≤ other.span.start := by
      intro other hother
      rcases List.mem_cons.mp hother with rfl | hother
      · omega
      · have := hbehind other hother
        omega
    rw [applyFrom, show edit.span.start - position = size kept by omega, ← hold, takeBytes_size,
      dropBytes_size, dropBytes_size, hmore, together_kept hbefore, hkept,
      together_edit hends hbehind, List.append_assoc]

/-- Edits at different offsets can be recorded in any order. -/
theorem ofEdits_congr (h : ∀ offset, other.filter (fun edit => edit.span.start = offset) =
    edits.filter fun edit => edit.span.start = offset) :
    Change.ofEdits other = Change.ofEdits edits := by
  rw [Change.ofEdits, Change.ofEdits, StableSort.sort_congr place precedes_trans precedes_total
    precedes_tie (filter_place h)]

/-- What is known of a change: it has the edits that were recorded, in order, each of which ends
    before the next begins. -/
theorem edits_of_ofEdits (h : Change.ofEdits edits = .ok change) :
    change.edits = StableSort.sort precedes edits ∧
      change.edits.Pairwise fun a b => a.precedes b = true ∧ a.span.stop ≤ b.span.start := by
  rw [Change.ofEdits] at h
  split at h
  · rename_i hdisjoint
    rw [← Except.ok.inj h]
    exact ⟨rfl, (pairwise_sorted edits).and (disjoint_iff.mp hdisjoint)⟩
  · cases h

/-- A change whose edits begin and end where characters do makes of a text what its edits do all at
    once, as they were recorded. -/
theorem apply_eq_together (h : Change.ofEdits edits = .ok change)
    (hfits : ∀ edit ∈ edits, IsBoundary text edit.span.start ∧ IsBoundary text edit.span.stop) :
    change.fits text = true ∧ change.apply text = together edits 0 text := by
  rcases edits_of_ofEdits h with ⟨hedits, hordered⟩
  have hmem (edit : Edit) : edit ∈ change.edits ↔ edit ∈ edits := by
    rw [hedits]
    exact (StableSort.sort_perm precedes edits).mem_iff
  constructor
  · rw [fits, List.all_eq_true]
    intro edit hedit
    rw [Bool.and_eq_true]
    exact hfits edit ((hmem edit).mp hedit)
  · rw [apply, applyFrom_eq hordered fun edit hedit => ⟨Nat.zero_le _,
      hfits edit ((hmem edit).mp hedit)⟩]
    rw [hedits]
    -- Edits at one place, all that is asked for, are still in the order they were recorded in.
    refine together_congr (fun key => StableSort.filter_sort (fun a b ha hb => ?_) edits) 0 text
    rw [decide_eq_true_eq] at ha hb
    exact ((precedes_tie a b).mp (ha.trans hb.symm)).1

end Change

namespace Parse

/-- What is around a node in the text of a parse that ends. -/
theorem text_around {rule : Nat → Grammar.State → Grammar.State} (hrule : IsEntry rule)
    {text : Text} (hends : (withRule rule text).finished = true) {node : Node}
    (hnode : node ∈ (withRule rule text).root.descendants) :
    ∃ before after, text = before ++ (node.tree.fullText ++ after) ∧
      node.place.bytes = size before := by
  have htokens := (tokens_root hrule hends).1
  have htext : (withRule rule text).root.tree.fullText = text := by
    rw [Tree.fullText, htokens]
    exact Lexing.fullText_all text
  have hplace : (withRule rule text).root.place.bytes = 0 :=
    congrArg Span.start (tokens_root hrule hends).2
  rw [Node.mem_descendants, Node.subtree] at hnode
  -- The root is the whole text; any other node fills a frame around it.
  rcases List.mem_cons.mp hnode with heq | hnode
  · injection heq with heq
    rw [heq, htext, hplace]
    exact ⟨[], [], (List.append_nil text).symm, rfl⟩
  · rcases Node.frame_of_locateAll _ hnode with ⟨frame, hfills⟩
    refine ⟨frame.front.flatMap Token.fullText, frame.back.flatMap Token.fullText, ?_, ?_⟩
    · have hrow : Tree.tokensOf (withRule rule text).root.children =
          frame.front ++ (node.tree.tokens ++ frame.back) := by
        rw [hfills.row, Tree.Frame.tokens_fill, Tree.tokensOf_singleton]
      rw [Tree.fullText, ← List.flatMap_append, ← List.flatMap_append, ← hrow]
      exact htext.symm
    · rw [hfills.bytes]
      exact (congrArg (· + _) hplace).trans (Nat.zero_add _)

/-- Nodes begin where characters begin. -/
theorem isBoundary_span {rule : Nat → Grammar.State → Grammar.State} (hrule : IsEntry rule)
    {text : Text} (hends : (withRule rule text).finished = true) {node : Node}
    (hnode : node ∈ (withRule rule text).root.descendants) :
    IsBoundary text node.span.start := by
  rcases text_around hrule hends hnode with ⟨before, after, htext, hbytes⟩
  rw [Node.span]
  split
  · rw [htext, Span.empty, hbytes]
    exact isBoundary_size before _
  · -- The text of the node is its trivia in front and what follows them.
    have hfull : node.tree.fullText =
        (node.tree.pieces.takeWhile (·.kind.isTrivia)).flatMap Piece.text ++
          (node.tree.pieces.dropWhile (·.kind.isTrivia)).flatMap Piece.text := by
      rw [← List.flatMap_append, List.takeWhile_append_dropWhile, Tree.pieces,
        Tree.text_flatMap_pieces]
      rfl
    rw [htext, hfull, hbytes, Tree.leadingSize, ← size_append, List.append_assoc,
      ← List.append_assoc]
    exact isBoundary_size _ _

end Parse

namespace Splice

/-- A step of a rewrite around a statement. -/
inductive Step where
  | before (hoists : List Hoist)
  | replace (span : Span) (insert : Text)

/-- The edits that a step records. -/
def Step.edits (text : Text) (anchor : Node) : Step → List Edit
  | .before hoists => Edit.before text anchor.span.start hoists
  | .replace span insert => [⟨span, insert⟩]

/-- The edits that some steps record, in their order. -/
def recorded (text : Text) (anchor : Node) (steps : List Step) : List Edit :=
  steps.flatMap (Step.edits text anchor)

/-- Whether two of some edits are in each other's way. -/
def Clash (edits : List Edit) : Prop :=
  ∃ (i j : Nat) (a b : Edit), i < j ∧ edits[i]? = some a ∧ edits[j]? = some b ∧ a.Collides b

/-- Steps around a statement are refused just if two of their edits are in each other's way: two
    replacements that overlap, or an insertion strictly inside a replacement. Otherwise they make
    one change. Its edits are those that were recorded, in order, each of which ends before the next
    begins, and it makes of the text what they do all at once: every character stays that none of
    them replaces, and at each offset there is first what is inserted, as it was recorded, and then
    what replaces the text behind the offset. The same edits at each offset make the same change, in
    whatever order offsets are visited. -/
theorem spliced_together {text : Text} (hends : (Parse.file text).finished = true) {anchor : Node}
    (hanchor : anchor ∈ (Parse.file text).root.descendants) {steps : List Step}
    (hsteps : ∀ span insert, Step.replace span insert ∈ steps →
      IsBoundary text span.start ∧ IsBoundary text span.stop) :
    (Change.ofEdits (recorded text anchor steps) = .error (.mismatch .overlappingEdits) ↔
      Clash (recorded text anchor steps)) ∧
    (¬ Clash (recorded text anchor steps) → ∃ change,
      Change.ofEdits (recorded text anchor steps) = .ok change ∧
      change.edits.Perm (recorded text anchor steps) ∧
      change.edits.Pairwise (fun a b => a.precedes b = true ∧ a.span.stop ≤ b.span.start) ∧
      change.fits text = true ∧
      change.apply text = Edit.together (recorded text anchor steps) 0 text ∧
      ∀ other : List Step,
        (∀ offset, (recorded text anchor other).filter (fun edit => edit.span.start = offset) =
          (recorded text anchor steps).filter fun edit => edit.span.start = offset) →
        Change.ofEdits (recorded text anchor other) = .ok change) := by
  refine ⟨Change.ofEdits_eq_error_iff, fun hclash => ?_⟩
  rcases hchange : Change.ofEdits (recorded text anchor steps) with error | change
  · have herror : error = .mismatch .overlappingEdits := by
      rw [Change.ofEdits] at hchange
      split at hchange
      · cases hchange
      · exact (Except.error.inj hchange).symm
    rw [herror] at hchange
    exact absurd (Change.ofEdits_eq_error_iff.mp hchange) hclash
  -- Every edit sits between characters: hoists at the start of the anchor, replacements by
  -- assumption.
  have hfits : ∀ edit ∈ recorded text anchor steps,
      IsBoundary text edit.span.start ∧ IsBoundary text edit.span.stop := by
    intro edit hedit
    rcases List.mem_flatMap.mp hedit with ⟨step, hstep, hedit⟩
    cases step with
    | before hoists =>
      have hstart := Parse.isBoundary_span .file hends hanchor
      have hbefore : edit ∈ Edit.before text anchor.span.start hoists := hedit
      unfold Edit.before at hbefore
      split at hbefore
      · exact absurd hbefore List.not_mem_nil
      · rw [List.mem_singleton.mp hbefore]
        exact ⟨hstart, hstart⟩
    | replace span insert =>
      rw [Step.edits, List.mem_singleton] at hedit
      rw [hedit]
      exact hsteps span insert hstep
  rcases Change.edits_of_ofEdits hchange with ⟨hedits, hordered⟩
  rcases Change.apply_eq_together hchange hfits with ⟨hfits, happly⟩
  refine ⟨change, rfl, ?_, hordered, hfits, happly, fun other hother => ?_⟩
  · rw [hedits]
    exact StableSort.sort_perm Edit.precedes _
  · rw [Change.ofEdits_congr hother, hchange]

/-- A replacement that is recorded in front of the statement that goes before it, and an insertion
    where the replacement ends. -/
theorem spliced_together_echo :
    (Parse.file "<?php echo $b;".toList).finished = true ∧
      ∃ anchor ∈ (Parse.file "<?php echo $b;".toList).root.descendants, ∃ steps change,
        steps = [.replace ⟨11, 2⟩ "$c".toList, .before [⟨"a".toList, "$a = 1;".toList⟩],
          .replace ⟨13, 0⟩ " . 'd'".toList] ∧
        Change.ofEdits (recorded "<?php echo $b;".toList anchor steps) = .ok change ∧
        change.apply "<?php echo $b;".toList =
          Edit.together (recorded "<?php echo $b;".toList anchor steps) 0
            "<?php echo $b;".toList ∧
        change.apply "<?php echo $b;".toList = "<?php $a = 1; echo $c . 'd';".toList := by
  generalize hsteps : [Step.replace ⟨11, 2⟩ "$c".toList, .before [⟨"a".toList, "$a = 1;".toList⟩],
    .replace ⟨13, 0⟩ " . 'd'".toList] = steps
  generalize htext : "<?php echo $b;".toList = text
  obtain ⟨hends, hany⟩ :
      (Parse.file text).finished = true ∧
      (Parse.file text).root.descendants.any (fun anchor =>
        (Change.ofEdits (recorded text anchor steps)).toOption.any fun change =>
        change.apply text == "<?php $a = 1; echo $c . 'd';".toList) = true := by
    rw [← htext, ← hsteps]
    decide +kernel
  rcases List.any_eq_true.mp hany with ⟨anchor, hanchor, htest⟩
  rcases eq_ok_of_any htest with ⟨made, hmade, hresult⟩
  have hboundaries : ∀ span insert, Step.replace span insert ∈ steps →
      IsBoundary text span.start ∧ IsBoundary text span.stop := by
    intro span insert hstep
    rw [← hsteps] at hstep
    rw [← htext]
    simp only [List.mem_cons, Step.replace.injEq, reduceCtorEq, List.not_mem_nil, or_false,
      false_or] at hstep
    rcases hstep with ⟨rfl, _⟩ | ⟨rfl, _⟩ <;> exact ⟨rfl, rfl⟩
  rcases spliced_together hends hanchor hboundaries with ⟨hrefused, hsplice⟩
  have hclash : ¬ Clash (recorded text anchor steps) := by
    rw [← hrefused, hmade]
    exact fun h => by cases h
  rcases hsplice hclash with ⟨change, hchange, _, _, _, happly, _⟩
  rw [hmade] at hchange
  rw [← Except.ok.inj hchange] at happly
  exact ⟨hends, anchor, hanchor, steps, made, rfl, hmade, happly, beq_iff_eq.mp hresult⟩

end Splice

end PhpAssist

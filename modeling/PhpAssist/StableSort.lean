/-!
# Stable sorting

Sorting by insertion. An item goes in front of the first item that it may precede, and items are
taken from the right, so items that may precede each other keep the order they had.

## Main definitions

* `StableSort.insert`: Puts an item into a sorted list.
* `StableSort.sort`: Sorts a list.

## Theorems

* `StableSort.sort_perm`: Sorting loses nothing and adds nothing.
* `StableSort.pairwise_sort`: What was sorted is in order.
* `StableSort.filter_sort`: Items that may precede each other keep the order they had.
* `StableSort.sort_congr`: Sorting asks for no order but that one.
-/

namespace PhpAssist

namespace StableSort

variable {α : Type}

/-- Puts an item in front of the first item that it may precede. -/
def insert (precedes : α → α → Bool) (item : α) : List α → List α
  | [] => [item]
  | first :: more =>
    if precedes item first then item :: first :: more else first :: insert precedes item more

/-- Sorts a list. Items that may precede each other keep the order they have. -/
def sort (precedes : α → α → Bool) : List α → List α
  | [] => []
  | item :: more => insert precedes item (sort precedes more)

theorem insert_perm (precedes : α → α → Bool) (item : α) (items : List α) :
    (insert precedes item items).Perm (item :: items) := by
  induction items with
  | nil => exact .refl _
  | cons first more ih =>
    rw [insert]
    split
    · exact .refl _
    · exact (ih.cons first).trans (.swap item first more)

/-- Sorting loses nothing and adds nothing. -/
theorem sort_perm (precedes : α → α → Bool) (items : List α) :
    (sort precedes items).Perm items := by
  induction items with
  | nil => exact .refl _
  | cons item more ih => exact (insert_perm precedes item _).trans (ih.cons item)

theorem pairwise_insert {precedes : α → α → Bool}
    (trans : ∀ a b c, precedes a b → precedes b c → precedes a c)
    (total : ∀ a b, precedes a b || precedes b a) (item : α) {items : List α}
    (sorted : items.Pairwise (precedes · ·)) :
    (insert precedes item items).Pairwise (precedes · ·) := by
  induction items with
  | nil => exact List.pairwise_singleton _ _
  | cons first more ih =>
    have ⟨before, rest⟩ := List.pairwise_cons.1 sorted
    rw [insert]
    split
    case isTrue h =>
      refine List.pairwise_cons.2 ⟨fun other mem => ?_, sorted⟩
      rcases List.mem_cons.1 mem with rfl | mem
      · exact h
      · exact trans _ _ _ h (before other mem)
    case isFalse h =>
      refine List.pairwise_cons.2 ⟨fun other mem => ?_, ih rest⟩
      rcases List.mem_cons.1 ((insert_perm precedes item more).mem_iff.1 mem) with rfl | mem
      · exact (Bool.or_eq_true _ _ ▸ total other first).resolve_left h
      · exact before other mem

/-- What was sorted is in order. -/
theorem pairwise_sort {precedes : α → α → Bool}
    (trans : ∀ a b c, precedes a b → precedes b c → precedes a c)
    (total : ∀ a b, precedes a b || precedes b a) (items : List α) :
    (sort precedes items).Pairwise (precedes · ·) := by
  induction items with
  | nil => exact .nil
  | cons item more ih => exact pairwise_insert trans total item ih

theorem filter_insert {precedes : α → α → Bool} {p : α → Bool}
    (same : ∀ a b, p a → p b → precedes a b) (item : α) (items : List α) :
    (insert precedes item items).filter p = (item :: items).filter p := by
  induction items with
  | nil => rfl
  | cons first more ih =>
    rw [insert]
    split
    · rfl
    · rename_i hpast
      -- The item goes behind this one, so not both of them are looked for.
      rw [List.filter_cons, ih]
      by_cases hitem : p item = true
      · have hfirst : ¬ p first = true := fun hfirst => hpast (same item first hitem hfirst)
        simp only [List.filter_cons, hitem, hfirst, if_true, if_false, Bool.false_eq_true]
      · simp only [List.filter_cons, hitem, if_false, Bool.false_eq_true]

/-- Items that may precede each other keep the order they had. -/
theorem filter_sort {precedes : α → α → Bool} {p : α → Bool}
    (same : ∀ a b, p a → p b → precedes a b) (items : List α) :
    (sort precedes items).filter p = items.filter p := by
  induction items with
  | nil => rfl
  | cons item more ih =>
    rw [sort, filter_insert same, List.filter_cons, List.filter_cons, ih]

theorem mem_of_filter {κ : Type} [DecidableEq κ] (key : α → κ) {items other : List α}
    (h : ∀ k, items.filter (key · = k) = other.filter (key · = k)) {item : α} (mem : item ∈ items) :
    item ∈ other := by
  have found : item ∈ items.filter (key · = key item) :=
    List.mem_filter.2 ⟨mem, decide_eq_true rfl⟩
  rw [h] at found
  exact (List.mem_filter.1 found).1

/-- Lists in order are told by the items of each place in the order. -/
theorem eq_of_filter {κ : Type} [DecidableEq κ] {precedes : α → α → Bool} (key : α → κ)
    (tie : ∀ a b, precedes a b → precedes b a → key a = key b) {items other : List α}
    (sorted : items.Pairwise (precedes · ·)) (sorted' : other.Pairwise (precedes · ·))
    (h : ∀ k, items.filter (key · = k) = other.filter (key · = k)) : items = other := by
  induction items generalizing other with
  | nil =>
    cases other with
    | nil => rfl
    | cons b rest =>
      exact absurd (mem_of_filter key (fun k => (h k).symm) (.head _)) List.not_mem_nil
  | cons a more ih =>
    cases other with
    | nil => exact absurd (mem_of_filter key h (.head _)) List.not_mem_nil
    | cons b rest =>
      have ⟨before, sorted⟩ := List.pairwise_cons.1 sorted
      have ⟨before', sorted'⟩ := List.pairwise_cons.1 sorted'
      -- Each of the two first items precedes the other, so they have one place in the order.
      have hkey : key a = key b := by
        rcases List.mem_cons.1 (mem_of_filter key h (.head _)) with heq | ha
        · rw [heq]
        rcases List.mem_cons.1 (mem_of_filter key (fun k => (h k).symm) (.head _)) with heq | hb
        · rw [heq]
        exact tie a b (before b hb) (before' a ha)
      have hhead := h (key a)
      rw [List.filter_cons, List.filter_cons, if_pos (decide_eq_true rfl),
        if_pos (decide_eq_true hkey.symm), List.cons.injEq] at hhead
      rw [hhead.1, ih sorted sorted' fun k => ?_]
      have hk := h k
      rw [List.filter_cons, List.filter_cons, hhead.1] at hk
      by_cases hplace : key b = k
      · rw [if_pos (decide_eq_true hplace), if_pos (decide_eq_true hplace)] at hk
        exact (List.cons.inj hk).2
      · rw [if_neg (by rwa [decide_eq_true_eq]), if_neg (by rwa [decide_eq_true_eq])] at hk
        exact hk

/-- Lists with the same items in each place of the order are sorted alike. -/
theorem sort_congr {κ : Type} [DecidableEq κ] {precedes : α → α → Bool} (key : α → κ)
    (trans : ∀ a b c, precedes a b → precedes b c → precedes a c)
    (total : ∀ a b, precedes a b || precedes b a)
    (tie : ∀ a b, key a = key b ↔ precedes a b ∧ precedes b a) {items other : List α}
    (h : ∀ k, items.filter (key · = k) = other.filter (key · = k)) :
    sort precedes items = sort precedes other := by
  refine eq_of_filter key (fun a b hab hba => (tie a b).2 ⟨hab, hba⟩)
    (pairwise_sort trans total items) (pairwise_sort trans total other) fun k => ?_
  have hsame (a b : α) (ha : decide (key a = k) = true) (hb : decide (key b = k) = true) :
      precedes a b = true := by
    rw [decide_eq_true_eq] at ha hb
    exact ((tie a b).1 (ha.trans hb.symm)).1
  rw [filter_sort hsame, filter_sort hsame, h]

end StableSort

end PhpAssist

/-!
# Searching by halves

Where in a row the items that satisfy a condition come to an end, when they all stand in front of
the others. The stretch of the row in which the end can be is halved until nothing is left of it.

## Main definitions

* `Bisect.search`: The end among some numbers.
* `Bisect.point`: The end in a row.

## Theorems

* `Bisect.search_eq`: The search finds the end.
* `Bisect.point_append`: The items in front are those that were counted.
-/

namespace PhpAssist

namespace Bisect

variable {α : Type}

/-- The number from `low` to `high` at which a condition on numbers comes to an end. -/
def search (p : Nat → Bool) (low high : Nat) : Nat :=
  if low < high then
    let middle := (low + high) / 2
    if p middle then search p (middle + 1) high else search p low middle
  else low
termination_by high - low

/-- How many items stand in front of those that do not satisfy a condition. -/
def point (p : α → Bool) (row : List α) : Nat := search (fun i => row[i]?.any p) 0 row.length

/-- The end is between the two numbers at every step of the search, so it is what is left. -/
theorem search_eq {p : Nat → Bool} {low high count : Nat} (hlow : low ≤ count)
    (hhigh : count ≤ high) (hbelow : ∀ i < count, p i = true)
    (habove : ∀ i < high, count ≤ i → p i = false) : search p low high = count := by
  fun_induction search p low high with
  | case1 low high hlt middle hp ih =>
    have hmiddle : middle < count := by
      by_cases hle : count ≤ middle
      · rw [habove middle (by omega) hle] at hp
        exact absurd hp Bool.false_ne_true
      · omega
    exact ih hmiddle hhigh habove
  | case2 low high hlt middle hp ih =>
    have hmiddle : count ≤ middle := by
      by_cases hlt : middle < count
      · exact absurd (hbelow middle hlt) hp
      · omega
    refine ih hlow hmiddle fun i hi hle => habove i ?_ hle
    omega
  | case3 low high hge => omega

/-- The items in front are those that were counted. -/
theorem point_append {p : α → Bool} {front back : List α} (hfront : ∀ item ∈ front, p item = true)
    (hback : ∀ item ∈ back, p item = false) : point p (front ++ back) = front.length := by
  unfold point
  refine search_eq (Nat.zero_le _) ?_ (fun i hi => ?_) fun i hi hle => ?_
  · rw [List.length_append]
    omega
  · rw [List.getElem?_append_left hi, List.getElem?_eq_getElem hi, Option.any_some]
    exact hfront _ (List.getElem_mem hi)
  · rw [List.length_append] at hi
    have hi' : i - front.length < back.length := by omega
    rw [List.getElem?_append_right hle, List.getElem?_eq_getElem hi', Option.any_some]
    exact hback _ (List.getElem_mem hi')

end Bisect

end PhpAssist

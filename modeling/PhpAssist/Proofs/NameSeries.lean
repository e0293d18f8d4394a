import PhpAssist.Proofs.FreshNames

/-!
# Names for a row of bases

A name is searched for by trying: the base first, then the base with 2, with 3 and so on, for as
long as what was tried is in use. Nothing in the search itself bounds it. It ends because finitely
many names are in use while no two candidates are the same, and what it ends at is the first
candidate that is free.

Every name that was handed out is in use from then on. A row of bases therefore gets names that
differ from each other and from all that were there, also where a base is met again and where a
base looks like another one with a number.

## Main definitions

* `Names.Search`: Trying one name after the other.
* `Names.IsFirst`: The first candidate that is free.
* `Names.series`: Names for a row of bases.

## Theorems

* `Names.IsFirst.search`: The search ends, and only at the first candidate that is free.
* `Names.isFirst_series`: Each name of a row against those in use before it.
* `Names.fresh_series`: What a row of bases gets.
-/

namespace PhpAssist

namespace Names

open Text

/-- Trying a name, and the base with the number after it and all later ones, for as long as what was
    tried is in use. -/
inductive Search (used : List Text) (base : Text) : Text → Nat → Text → Prop
  | found {name : Text} {number : Nat} (hfree : name ∉ used) : Search used base name number name
  | next {name result : Text} {number : Nat} (hused : name ∈ used)
      (hmore : Search used base (base ++ '_' :: ofNat number) (number + 1) result) :
      Search used base name number result

/-- A name is the first candidate that is free, and there are no more candidates in front of it than
    names in use. -/
def IsFirst (used : List Text) (base name : Text) : Prop :=
  ∃ n ≤ used.length, name = candidate base n ∧ name ∉ used ∧ ∀ m < n, candidate base m ∈ used

/-- Names for a row of bases, each of them in use for those behind it. -/
def series (names : Names) : List Text → List Text
  | [] => []
  | base :: more => (names.fresh base).1 :: series (names.fresh base).2 more

variable {used other : List Text} {base name result : Text} {number : Nat}

/-! ## One name -/

/-- A search ends at one name only. -/
theorem Search.unique {last : Text} (h : Search used base name number result)
    (hlast : Search used base name number last) : result = last := by
  induction h with
  | found hfree =>
    cases hlast with
    | found _ => rfl
    | next hused _ => exact absurd hused hfree
  | next hused _ ih =>
    cases hlast with
    | found hfree => exact absurd hused hfree
    | next _ hmore => exact ih hmore

/-- A search goes over candidates in use up to the first one that is free. -/
theorem search_candidate {n k : Nat} (hle : n ≤ k) (hfree : candidate base k ∉ used)
    (hused : ∀ m < k, candidate base m ∈ used) :
    Search used base (candidate base n) (n + 2) (candidate base k) := by
  -- The induction is on how far the search still has to go.
  induction hfar : k - n generalizing n with
  | zero =>
    rw [show n = k by omega]
    exact .found hfree
  | succ far ih => exact .next (hused n (by omega)) (@ih (n + 1) (by omega) (by omega))

/-- The search for a name ends, and only at the first candidate that is free. -/
theorem IsFirst.search (h : IsFirst used base name) (result : Text) :
    Search used base base 2 result ↔ result = name := by
  rcases h with ⟨n, _, rfl, hfree, hused⟩
  have hsearch : Search used base base 2 (candidate base n) :=
    search_candidate (Nat.zero_le n) hfree hused
  constructor
  · exact fun h => h.unique hsearch
  · rintro rfl
    exact hsearch

theorem IsFirst.perm (h : IsFirst used base name) (hperm : used.Perm other) :
    IsFirst other base name := by
  rcases h with ⟨n, hn, heq, hfree, hused⟩
  refine ⟨n, hperm.length_eq ▸ hn, heq, fun hmem => hfree (hperm.mem_iff.mpr hmem), fun m hm => ?_⟩
  exact hperm.mem_iff.mp (hused m hm)

theorem isFirst_free (names : Names) (base : Text) :
    IsFirst names.taken base (names.free base) := by
  rcases exists_first names base with ⟨n, hn, heq, hfree, hused⟩
  exact ⟨n, hn, heq, heq ▸ hfree, hused⟩

/-! ## A row of names -/

theorem length_series (names : Names) (bases : List Text) :
    (names.series bases).length = bases.length := by
  induction bases generalizing names with
  | nil => rfl
  | cons base more ih => rw [series, List.length_cons, List.length_cons, ih]

/-- The names of a row differ from each other and from those that were in use. -/
theorem nodup_series (names : Names) (bases : List Text) :
    (names.series bases).Nodup ∧ ∀ name ∈ names.series bases, name ∉ names.taken := by
  induction bases generalizing names with
  | nil => exact ⟨List.nodup_nil, List.forall_mem_nil _⟩
  | cons base more ih =>
    rcases ih (names.fresh base).2 with ⟨hnodup, hnew⟩
    rw [series, List.nodup_cons, List.forall_mem_cons]
    -- The first name is in use for the rest of the row.
    refine ⟨⟨fun hmem => hnew _ hmem List.mem_cons_self, hnodup⟩, free_not_mem names base, ?_⟩
    exact fun name hname hmem => hnew name hname (List.mem_cons_of_mem _ hmem)

/-- A name of a row is the first candidate for its base that is free where the names in front of it
    are in use. -/
theorem isFirst_series {names : Names} {bases : List Text} {i : Nat}
    (hbase : bases[i]? = some base) (hname : (names.series bases)[i]? = some name) :
    IsFirst ((names.series bases).take i ++ names.taken) base name := by
  induction bases generalizing names i with
  | nil => exact absurd hbase (by simp only [List.getElem?_nil, reduceCtorEq, not_false_eq_true])
  | cons first more ih =>
    rw [series] at hname ⊢
    rcases i with _ | i
    · rw [List.getElem?_cons_zero, Option.some.injEq] at hbase hname
      rw [← hbase, ← hname, List.take_zero, List.nil_append]
      exact isFirst_free names first
    · rw [List.getElem?_cons_succ] at hbase hname
      rw [List.take_succ_cons, List.cons_append]
      exact (ih hbase hname).perm List.perm_middle

/-- What a row of bases gets under a root. The names differ from each other and from those that are
    in use in the code. The search for each of them ends, and only there: at the first of the base,
    the base with 2, the base with 3 and so on that is neither in use in the code nor handed out
    before. -/
theorem fresh_series (root : Node) (bases : List Text) :
    ((Names.of root).series bases).length = bases.length ∧
    ((Names.of root).series bases).Nodup ∧
    (∀ name ∈ (Names.of root).series bases, name ∉ (Names.of root).taken) ∧
    ∀ i base name, bases[i]? = some base → ((Names.of root).series bases)[i]? = some name →
      (∀ result, Search (((Names.of root).series bases).take i ++ (Names.of root).taken)
        base base 2 result ↔ result = name) ∧
      IsFirst (((Names.of root).series bases).take i ++ (Names.of root).taken) base name := by
  rcases nodup_series (Names.of root) bases with ⟨hnodup, hnew⟩
  refine ⟨length_series _ bases, hnodup, hnew, fun i base name hbase hname => ?_⟩
  have hfirst := isFirst_series hbase hname
  exact ⟨hfirst.search, hfirst⟩

example : series ⟨["a".toList, "a_2".toList]⟩ ["a".toList, "a".toList, "a_3".toList] =
    ["a_3".toList, "a_4".toList, "a_3_2".toList] := by decide

end Names

end PhpAssist

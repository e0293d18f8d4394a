import PhpAssist.Assist.Operands
import PhpAssist.Proofs.TextEnds

/-!
# Fresh names are free

A name that is made up is not among the names in use. One more candidate is tried than there are
names in use, and no two candidates are the same, so one of them is free. It is the name of a
variable, so that behind a dollar sign a text mentions it and nothing else.

## Theorems

* `Names.candidate_injective`: No two candidates are the same.
* `Names.exists_first`: A fresh name is the first candidate that is free.
* `Names.free_not_mem`: A fresh name is not in use.
* `Names.mentioned_braced`: What a variable in braces mentions.
* `Names.isName_free`: A fresh name is the name of a variable.
-/

namespace PhpAssist

namespace Text

/-- A number is told by its digits. -/
theorem ofNat_eq (n : Nat) : ofNat n = Nat.toDigits 10 n := by
  rw [ofNat, Nat.toString_eq_repr, Nat.repr_eq_ofList_toDigits, String.toList_ofList]

theorem ofNat_injective {m n : Nat} (h : ofNat m = ofNat n) : m = n := by
  rw [ofNat_eq, ofNat_eq] at h
  rw [← @Nat.ofDigitChars_ten_toDigits m, h, Nat.ofDigitChars_ten_toDigits]

theorem all_ofNat (n : Nat) : (ofNat n).all isIdentContinue = true := by
  rw [ofNat_eq, List.all_eq_true]
  intro c hc
  rw [isIdentContinue, Nat.isDigit_of_mem_toDigits (by decide) (by decide) hc, Bool.or_true]

end Text

namespace Names

open Text

variable {names : Names} {base : Text}

/-- No two candidates are the same. -/
theorem candidate_injective {m n : Nat} (h : candidate base m = candidate base n) : m = n := by
  have hnumbered (n : Nat) : candidate base (n + 1) ≠ candidate base 0 := by
    rw [candidate, candidate]
    exact fun heq => absurd (List.append_right_eq_self.mp heq) (List.cons_ne_nil _ _)
  rcases m with _ | m <;> rcases n with _ | n
  · rfl
  · exact absurd h.symm (hnumbered n)
  · exact absurd h (hnumbered m)
  · rw [candidate, candidate, List.append_cancel_left_eq, List.cons.injEq] at h
    have hnumber := ofNat_injective h.2
    omega

/-- Some candidate is free. -/
theorem exists_candidate (names : Names) (base : Text) :
    ∃ name ∈ (List.range (names.taken.length + 1)).map (candidate base), name ∉ names.taken := by
  refine Classical.byContradiction fun hnone => ?_
  have hsubset : (List.range (names.taken.length + 1)).map (candidate base) ⊆ names.taken :=
    fun name hname => Classical.byContradiction fun hfree => hnone ⟨name, hname, hfree⟩
  have hnodup : ((List.range (names.taken.length + 1)).map (candidate base)).Nodup := by
    rw [List.nodup_iff_pairwise_ne, List.pairwise_map]
    exact List.nodup_range.imp fun hne heq => hne (candidate_injective heq)
  have hlength := hnodup.length_le_of_subset hsubset
  rw [List.length_map, List.length_range] at hlength
  omega

/-- A fresh name is the first candidate that is free. -/
theorem exists_first (names : Names) (base : Text) :
    ∃ n ≤ names.taken.length, names.free base = candidate base n ∧
      candidate base n ∉ names.taken ∧ ∀ m < n, candidate base m ∈ names.taken := by
  have hsome : (((List.range (names.taken.length + 1)).map (candidate base)).find? fun name =>
      !names.taken.contains name).isSome = true := by
    rw [List.find?_isSome]
    rcases exists_candidate names base with ⟨name, hname, hfree⟩
    refine ⟨name, hname, ?_⟩
    rw [Bool.not_eq_true', ← Bool.not_eq_true, List.contains_iff_mem]
    exact hfree
  rcases Option.isSome_iff_exists.mp hsome with ⟨name, hname⟩
  have hfound := hname
  rw [List.find?_map, Option.map_eq_some_iff] at hfound
  rcases hfound with ⟨n, hn, rfl⟩
  rcases List.find?_range_eq_some.mp hn with ⟨hfree, hrange, hbefore⟩
  rw [List.mem_range] at hrange
  rw [free, hname, Option.getD_some]
  refine ⟨n, Nat.le_of_lt_succ hrange, rfl, fun hmem => ?_, fun m hm => ?_⟩
  · rw [Function.comp_apply, List.contains_iff_mem.mpr hmem] at hfree
    exact absurd hfree (by decide)
  · have htaken := hbefore m hm
    rwa [Function.comp_apply, Bool.not_not, List.contains_iff_mem] at htaken

/-- A fresh name is not in use. -/
theorem free_not_mem (names : Names) (base : Text) : names.free base ∉ names.taken := by
  rcases exists_first names base with ⟨n, _, heq, hfree, _⟩
  exact heq ▸ hfree

/-- A fresh name made from the name of a variable is the name of a variable. -/
theorem isName_free (names : Names) (hbase : isName base = true) :
    isName (names.free base) = true := by
  rcases exists_first names base with ⟨n, _, hn, _⟩
  rw [hn]
  rcases n with _ | n
  · exact hbase
  · rw [candidate]
    refine isName_append hbase ?_
    rw [List.all_cons, all_ofNat]
    rfl

/-- What a variable in braces mentions. -/
theorem mentioned_braced {name : Text} (hname : isName name = true) :
    mentioned (Resolution.braced ('$' :: name)) = [name] := by
  rw [isName, Bool.and_eq_true] at hname
  -- Nothing is mentioned where there is no dollar sign, and behind the name there is none.
  have hplain (text : Text) (h : '$' ∉ text) : mentioned text = [] := by
    induction text with
    | nil => rfl
    | cons c text ih =>
      rw [List.mem_cons, not_or] at h
      unfold mentioned
      split
      · rfl
      · rename_i heq
        injection heq with hhead
        exact absurd hhead.symm h.1
      · rename_i heq
        injection heq with _ htail
        rw [← htail]
        exact ih h.2
  have hrest : '$' ∉ name ++ ['}'] := by
    rw [List.mem_append, not_or]
    refine ⟨fun hmem => ?_, by decide⟩
    exact absurd (List.all_eq_true.mp hname.2 _ hmem) (by decide)
  have htake : (name ++ ['}']).takeWhile isIdentContinue = name := by
    rw [List.takeWhile_append_of_pos fun c hc => List.all_eq_true.mp hname.2 c hc,
      List.takeWhile_cons_of_neg (by decide), List.append_nil]
  have hhead : (name ++ ['}']).head?.any isIdentStart = true := by
    rcases name with _ | ⟨c, name⟩
    · exact absurd hname.1 Bool.false_ne_true
    · exact hname.1
  have hdollar : mentioned (Resolution.braced ('$' :: name)) = mentioned ('$' :: (name ++ ['}'])) :=
    rfl
  rw [hdollar, mentioned, if_pos hhead, htake, hplain _ hrest]

end Names

end PhpAssist

import PhpAssist.Text

/-!
# Cutting where a character begins

Offsets count bytes, and an offset is good only where a character begins. The offsets the rest of
this library computes are all sizes of an initial part of the text they cut, and at such an offset
every way of cutting gives back that part and what follows it.

## Theorems

* `Text.size_append`: Sizes add up.
* `Text.splitAt?_size`, `Text.takeBytes_size`, `Text.dropBytes_size`: Cutting a text behind an
  initial part of it.
* `Text.splitAt?_append`, `Text.splitAt?_some`: Cutting further on, and what was cut.
-/

namespace PhpAssist

namespace Text

theorem size_nil : size [] = 0 := rfl

theorem size_cons (c : Char) (text : Text) : size (c :: text) = c.utf8Size + size text := rfl

theorem size_append (text more : Text) : size (text ++ more) = size text + size more := by
  induction text with
  | nil => rw [List.nil_append, size_nil, Nat.zero_add]
  | cons c text ih => rw [List.cons_append, size_cons, size_cons, ih, Nat.add_assoc]

theorem size_pos {text : Text} (h : text ≠ []) : 0 < size text := by
  cases text with
  | nil => exact absurd rfl h
  | cons c text =>
    have hc := Char.utf8Size_pos c
    rw [size_cons]
    omega

theorem splitAt?_size (text rest : Text) :
    splitAt? (size text) (text ++ rest) = some (text, rest) := by
  induction text with
  | nil => rw [size_nil, List.nil_append, splitAt?]
  | cons c text ih =>
    have hc := Char.utf8Size_pos c
    rcases hsize : size (c :: text) with _ | n
    · rw [size_cons] at hsize
      omega
    · rw [size_cons] at hsize
      rw [List.cons_append, splitAt?, if_pos (by omega),
        show n + 1 - c.utf8Size = size text by omega, ih]
      rfl

/-- A text can be cut behind an initial part where what follows that part can be cut. -/
theorem splitAt?_append (text rest : Text) (n : Nat) :
    splitAt? (size text + n) (text ++ rest) =
      (splitAt? n rest).map fun parts => (text ++ parts.1, parts.2) := by
  induction text with
  | nil => simp [size_nil]
  | cons c text ih =>
    have hc := Char.utf8Size_pos c
    rcases hsize : size (c :: text) + n with _ | m
    · rw [size_cons] at hsize
      omega
    · rw [size_cons] at hsize
      rw [List.cons_append, splitAt?, if_pos (by omega),
        show m + 1 - c.utf8Size = size text + n by omega, ih, Option.map_map]
      rfl

/-- The two parts of a text that was cut are the text, and the first has the size asked for. -/
theorem splitAt?_some {n : Nat} {text before after : Text}
    (h : splitAt? n text = some (before, after)) : text = before ++ after ∧ size before = n := by
  induction text generalizing n before with
  | nil =>
    cases n with
    | zero =>
      cases h
      exact ⟨rfl, rfl⟩
    | succ n => cases h
  | cons c text ih =>
    cases n with
    | zero =>
      cases h
      exact ⟨rfl, rfl⟩
    | succ n =>
      rw [splitAt?] at h
      split at h
      · rename_i hle
        rcases Option.map_eq_some_iff.mp h with ⟨⟨front, back⟩, hparts, heq⟩
        cases heq
        rcases ih hparts with ⟨rfl, hsize⟩
        refine ⟨rfl, ?_⟩
        rw [size_cons, hsize]
        omega
      · cases h

theorem takeBytes_size (text rest : Text) : takeBytes (size text) (text ++ rest) = text := by
  induction text with
  | nil =>
    cases rest with
    | nil => rfl
    | cons c rest =>
      have hc := Char.utf8Size_pos c
      rw [size_nil, List.nil_append, takeBytes, if_neg (by omega)]
  | cons c text ih =>
    rw [size_cons, List.cons_append, takeBytes, if_pos (by omega), Nat.add_sub_cancel_left, ih]

theorem dropBytes_size (text rest : Text) : dropBytes (size text) (text ++ rest) = rest := by
  induction text with
  | nil =>
    cases rest with
    | nil => rfl
    | cons c rest =>
      have hc := Char.utf8Size_pos c
      rw [size_nil, List.nil_append, dropBytes, if_neg (by omega)]
  | cons c text ih =>
    rw [size_cons, List.cons_append, dropBytes, if_pos (by omega), Nat.add_sub_cancel_left, ih]

end Text

end PhpAssist

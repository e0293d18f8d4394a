import PhpAssist.Proofs.Formats

/-!
# Three readings of a format

A format is read three times: its specifiers are put into one form, its placeholders are counted,
and values are put in their place. The first reading knows four specifiers and passes over any other
percent sign by itself, while the other two take every percent sign together with the character
behind it. They could get out of step at a percent sign that begins none of the four. They do not,
because then the character behind it is no percent sign, so nothing can begin there.

What all three see is therefore told by one row of units: a percent sign with the character behind
it, or any other character. Putting the specifiers into one form changes each unit by itself, and
what is counted and what is filled in are units of the row.

## Main definitions

* `Format.units`: The units of a format.
* `Format.isSpecifier`, `Format.isPlaceholder`, `Format.isKnown`: The units that begin with a
  percent sign, those that a value is put in place of, and those that can be filled in.
* `Format.normalUnit`: A unit after the specifiers were put into one form.

## Theorems

* `Format.units_normalize`: Putting the specifiers into one form changes each unit by itself.
* `Format.placeholders_eq`: What is counted.
* `Format.fill_eq_ok_iff`: When a format can be filled in.
* `Format.scanners_agree`: The three readings agree.
-/

namespace PhpAssist

namespace Format

open Text

/-- The units of a format from left to right: a percent sign with the character behind it, or any
    other character. A percent sign at the end is a unit of its own. -/
def units : Text → List Text
  | '%' :: c :: rest => ['%', c] :: units rest
  | c :: rest => [c] :: units rest
  | [] => []

/-- Whether a unit is a specifier. -/
def isSpecifier (unit : Text) : Bool := unit.head? == some '%'

/-- Whether a unit is a specifier that a value is put in place of. -/
def isPlaceholder (unit : Text) : Bool :=
  unit == ['%', 's'] || unit == ['%', 'd'] || unit == ['%', 'f']

/-- Whether a unit is a specifier that can be filled in. -/
def isKnown (unit : Text) : Bool := unit == ['%', '%'] || isPlaceholder unit

/-- A unit after the specifiers were put into one form. -/
def normalUnit (unit : Text) : Text := if isPlaceholder unit then ['%', 's'] else unit

/-- Going through a format unit by unit. -/
theorem byUnit {motive : Text → Prop} (nil : motive []) (lone : motive ['%'])
    (specifier : ∀ c rest, motive rest → motive ('%' :: c :: rest))
    (plain : ∀ c rest, c ≠ '%' → motive rest → motive (c :: rest)) (format : Text) :
    motive format := by
  induction format using units.induct with
  | case1 c rest ih => exact specifier c rest ih
  | case2 c rest hnone ih =>
    by_cases hc : c = '%'
    · rcases rest with _ | ⟨d, rest⟩
      · exact hc ▸ lone
      · exact absurd rfl (hnone d rest hc)
    · exact plain c rest hc ih
  | case3 => exact nil

theorem units_cons {c : Char} (hc : c ≠ '%') (rest : Text) :
    units (c :: rest) = [c] :: units rest := by
  rw [units]
  rintro _ _ rfl
  exact absurd rfl hc

/-- The units are the format. -/
theorem flatten_units (format : Text) : (units format).flatten = format := by
  induction format using byUnit with
  | nil => rfl
  | lone => rfl
  | specifier c rest ih =>
    rw [units, List.flatten_cons, ih, List.cons_append, List.singleton_append]
  | plain c rest hc ih => rw [units_cons hc, List.flatten_cons, ih, List.singleton_append]

/-! ## One form -/

theorem isPlaceholder_iff {unit : Text} :
    isPlaceholder unit = true ↔ unit = ['%', 's'] ∨ unit = ['%', 'd'] ∨ unit = ['%', 'f'] := by
  rw [isPlaceholder, Bool.or_eq_true, Bool.or_eq_true, beq_iff_eq, beq_iff_eq, beq_iff_eq, or_assoc]

theorem normalUnit_specifier (c : Char) :
    normalUnit ['%', c] = ['%', if c = 'd' ∨ c = 'f' then 's' else c] := by
  have hplaceholder : isPlaceholder ['%', c] = true ↔ c = 's' ∨ c = 'd' ∨ c = 'f' := by
    simp only [isPlaceholder_iff, List.cons.injEq, true_and, and_true]
  rw [normalUnit]
  by_cases hnumber : c = 'd' ∨ c = 'f'
  · rw [if_pos (hplaceholder.mpr (.inr hnumber)), if_pos hnumber]
  · rw [if_neg hnumber]
    split
    · rename_i hany
      rw [(hplaceholder.mp hany).resolve_right hnumber]
    · rfl

theorem normalUnit_plain (c : Char) : normalUnit [c] = [c] := by
  rw [normalUnit, if_neg]
  simp only [isPlaceholder_iff, List.cons.injEq, reduceCtorEq, and_false, or_self,
    not_false_eq_true]

/-- Putting the specifiers into one form changes each unit by itself. -/
theorem units_normalize (format : Text) :
    units (normalize format) = (units format).map normalUnit := by
  induction format using byUnit with
  | nil => rfl
  | lone => rfl
  | specifier c rest ih =>
    rw [normalize_specifier, units, units, List.map_cons, normalUnit_specifier, ih]
  | plain c rest hc ih =>
    rw [normalize_cons hc, units_cons hc, units_cons hc, List.map_cons, normalUnit_plain, ih]

theorem normalize_eq (format : Text) :
    normalize format = ((units format).map normalUnit).flatten := by
  rw [← units_normalize, flatten_units]

theorem normalUnit_normalUnit (unit : Text) : normalUnit (normalUnit unit) = normalUnit unit := by
  by_cases h : isPlaceholder unit = true
  · rw [show normalUnit unit = ['%', 's'] from if_pos h]
    rfl
  · rw [show normalUnit unit = unit from if_neg h]
    exact if_neg h

theorem normalize_normalize (format : Text) : normalize (normalize format) = normalize format := by
  rw [normalize_eq (normalize format), units_normalize, List.map_map,
    show normalUnit ∘ normalUnit = normalUnit from funext normalUnit_normalUnit, ← normalize_eq]

/-- One form is as long as the other, in characters and in bytes. -/
theorem length_normalize (format : Text) :
    (normalize format).length = format.length ∧ size (normalize format) = size format := by
  induction format using byUnit with
  | nil => exact ⟨rfl, rfl⟩
  | lone => exact ⟨rfl, rfl⟩
  | specifier c rest ih =>
    have hsize : Char.utf8Size (if c = 'd' ∨ c = 'f' then 's' else c) = c.utf8Size := by
      split
      · rename_i hc
        rcases hc with rfl | rfl <;> rfl
      · rfl
    rw [normalize_specifier]
    simp only [List.length_cons, size, ih, hsize, and_self]
  | plain c rest hc ih =>
    rw [normalize_cons hc]
    simp only [List.length_cons, size, ih, and_self]

/-! ## Counting and filling in -/

/-- What is counted are the units `%s`. -/
theorem placeholders_eq (format : Text) :
    placeholders format = (units format).countP (· == ['%', 's']) := by
  induction format using byUnit with
  | nil => rfl
  | lone => rfl
  | specifier c rest ih =>
    rw [placeholders, units, List.countP_cons, ih, Nat.add_comm]
    simp only [beq_iff_eq, List.cons.injEq, true_and, and_true]
  | plain c rest hc ih =>
    rw [placeholders_cons hc, units_cons hc, List.countP_cons_of_neg, ih]
    simp only [beq_iff_eq, List.cons.injEq, reduceCtorEq, and_false, not_false_eq_true]

/-- What is filled in are the units that are specifiers. -/
theorem map_parts (format : Text) :
    (Template.of format).parts.map Prod.fst = (units format).filter isSpecifier := by
  induction format using byUnit with
  | nil => rfl
  | lone => rfl
  | specifier c rest ih =>
    rw [Template.of, units, List.filter_cons_of_pos rfl, ← ih]
    rfl
  | plain c rest hc ih =>
    rw [template_cons hc, units_cons hc, List.filter_cons_of_neg, ← ih]
    rw [isSpecifier, List.head?_cons, beq_iff_eq, Option.some.injEq]
    exact hc

/-- Filling in goes through when it knows every specifier and there is one value for each `%s`. -/
theorem fillParts_eq_ok_iff {out : Text} {parts : List (Text × Text)} {values : List Text} :
    (∃ text, Template.fillParts out parts values = .ok text) ↔
      (∀ unit ∈ parts.map Prod.fst, unit = ['%', '%'] ∨ unit = ['%', 's']) ∧
        (parts.map Prod.fst).countP (· == ['%', 's']) = values.length := by
  have herror (error : AssistError) :
      ¬ ∃ text, (.error error : Except AssistError Text) = .ok text := by
    simp only [reduceCtorEq, exists_const, not_false_eq_true]
  induction parts generalizing out values with
  | nil =>
    rcases values with _ | ⟨value, values⟩
    · exact iff_of_true ⟨out, rfl⟩ ⟨List.forall_mem_nil _, rfl⟩
    · exact iff_of_false (herror _) fun h => absurd h.2 (Nat.succ_ne_zero _).symm
  | cons part parts ih =>
    rcases part with ⟨unit, literal⟩
    rw [Template.fillParts.eq_def, List.map_cons, List.forall_mem_cons]
    -- A `%%` takes no value, a `%s` takes the first one, and anything else ends it.
    dsimp only
    by_cases hpercent : unit = ['%', '%']
    · rw [if_pos hpercent, hpercent, List.countP_cons_of_neg (by decide)]
      refine ih.trans ?_
      simp only [true_or, true_and]
    rw [if_neg hpercent]
    by_cases hvalue : unit = ['%', 's']
    · rw [if_pos hvalue, hvalue, List.countP_cons_of_pos (by decide)]
      rcases values with _ | ⟨value, values⟩
      · exact iff_of_false (herror _) fun h => absurd h.2 (Nat.succ_ne_zero _)
      · rw [List.length_cons, Nat.add_right_cancel_iff]
        refine ih.trans ?_
        simp only [or_true, true_and]
    · rw [if_neg hvalue]
      exact iff_of_false (herror _) fun h => absurd h.1.1 (not_or.mpr ⟨hpercent, hvalue⟩)

/-- A format can be filled in when it has no other specifiers than `%%` and `%s`, and one value for
    each `%s`. -/
theorem fill_eq_ok_iff {format : Text} {values : List Text} :
    (∃ text, (Template.of format).fill values = .ok text) ↔
      (∀ unit ∈ units format, isSpecifier unit = true → unit = ['%', '%'] ∨ unit = ['%', 's']) ∧
        (units format).countP (· == ['%', 's']) = values.length := by
  have hcount (row : List Text) :
      (row.filter isSpecifier).countP (· == ['%', 's']) = row.countP (· == ['%', 's']) := by
    rw [List.countP_filter]
    refine List.countP_congr fun unit _ => ?_
    -- A `%s` is a specifier, so none is lost.
    rw [Bool.and_eq_true, beq_iff_eq]
    exact ⟨And.left, fun h => ⟨h, by rw [h]; rfl⟩⟩
  rw [Template.fill, fillParts_eq_ok_iff, map_parts, hcount]
  simp only [List.mem_filter, and_imp]

/-- A unit is counted after the specifiers were put into one form when it was `%s`, `%d` or `%f`. -/
theorem normalUnit_beq (unit : Text) : (normalUnit unit == ['%', 's']) = isPlaceholder unit := by
  by_cases h : isPlaceholder unit = true
  · rw [show normalUnit unit = ['%', 's'] from if_pos h, h]
    rfl
  · rw [show normalUnit unit = unit from if_neg h, Bool.eq_false_iff.mpr h, beq_eq_false_iff_ne]
    rintro rfl
    exact h rfl

theorem countP_normalUnit (row : List Text) :
    (row.map normalUnit).countP (· == ['%', 's']) = row.countP isPlaceholder := by
  rw [List.countP_map]
  exact List.countP_congr fun unit _ => by rw [Function.comp_apply, normalUnit_beq]

/-- Being a specifier does not depend on the form, and a specifier that can be filled in has one of
    two forms. -/
theorem known_normalUnit (unit : Text) :
    (isSpecifier (normalUnit unit) = true →
      normalUnit unit = ['%', '%'] ∨ normalUnit unit = ['%', 's']) ↔
    (isSpecifier unit = true → isKnown unit = true) := by
  by_cases h : isPlaceholder unit = true
  · rw [show normalUnit unit = ['%', 's'] from if_pos h, isKnown, h, Bool.or_true]
    exact iff_of_true (fun _ => .inr rfl) fun _ => rfl
  · rw [show normalUnit unit = unit from if_neg h, isKnown, Bool.or_eq_true, beq_iff_eq]
    have hstring : unit ≠ ['%', 's'] := by
      rintro rfl
      exact h rfl
    rw [or_iff_left hstring, or_iff_left h]

/-- The three readings of a format agree. Putting the specifiers into one form keeps the length and
    does nothing more the second time; what is counted then are the units `%s`, `%d` and `%f`; and
    filling in goes through when every specifier is one of them or `%%`, and there are as many
    values as specifiers other than `%%`. -/
theorem scanners_agree (format : Text) (values : List Text) :
    ((normalize format).length = format.length ∧ size (normalize format) = size format) ∧
    normalize (normalize format) = normalize format ∧
    placeholders (normalize format) = (units format).countP isPlaceholder ∧
    ((∃ text, (Template.of (normalize format)).fill values = .ok text) ↔
      (∀ unit ∈ units format, isSpecifier unit = true → isKnown unit = true) ∧
        (units format).countP (fun unit => isSpecifier unit && unit != ['%', '%']) =
          values.length) := by
  refine ⟨length_normalize format, normalize_normalize format, ?_, ?_⟩
  · rw [placeholders_eq, units_normalize, countP_normalUnit]
  rw [fill_eq_ok_iff, units_normalize, List.forall_mem_map, countP_normalUnit]
  simp only [known_normalUnit]
  refine and_congr_right fun hknown => ?_
  -- Where every specifier is known, those other than `%%` are the ones that take a value.
  have hcount : (units format).countP isPlaceholder =
      (units format).countP fun unit => isSpecifier unit && unit != ['%', '%'] := by
    refine List.countP_congr fun unit hunit => ?_
    rw [Bool.and_eq_true, bne_iff_ne]
    constructor
    · intro h
      rcases isPlaceholder_iff.mp h with rfl | rfl | rfl <;> decide
    · rintro ⟨hspecifier, hpercent⟩
      have hunit' := hknown unit hunit hspecifier
      rw [isKnown, Bool.or_eq_true, beq_iff_eq] at hunit'
      exact hunit'.resolve_left hpercent
  rw [hcount]

example : normalize "%x%d%%d%%%".toList = "%x%s%%d%%%".toList := by decide

end Format

end PhpAssist

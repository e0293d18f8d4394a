import PhpAssist.Proofs.Formats
import PhpAssist.Proofs.OpenQuotes

/-!
# What a format counts

In a format that is put together, every percent sign is one of two: the first half of a doubled
one, or the beginning of a placeholder. Nothing that is done to the format afterwards takes such a
pair apart. Joining writes something in front of a dollar sign or of a brace only, or at the end;
taking the quotes off takes a backslash away in front of a quote only. The number of placeholders
therefore stays what it was when the operands were put in.

## Main definitions

* `Format.Counts`: A text whose percent signs come in pairs, with the number of its placeholders.

## Theorems

* `Format.Counts.push`: Joining keeps the pairs.
* `Format.Counts.heredocOfDouble`: Taking the quotes off keeps them.
* `Format.Counts.placeholders_normalize`: What is counted at last.
-/

namespace PhpAssist

namespace Format

open Text

/-- A text in which every percent sign is doubled or begins a placeholder, and the number of
    placeholders in it. -/
inductive Counts : Text → Nat → Prop
  | nil : Counts [] 0
  | plain {c : Char} {text : Text} {n : Nat} (hc : c ≠ '%') (h : Counts text n) :
      Counts (c :: text) n
  | percent {text : Text} {n : Nat} (h : Counts text n) : Counts ('%' :: '%' :: text) n
  | placeholder {text : Text} {n : Nat} (h : Counts text n) : Counts ('%' :: 's' :: text) (n + 1)

namespace Counts

variable {text more out piece : Text} {first : Char} {m n : Nat}

theorem append (h : Counts text m) (hmore : Counts more n) : Counts (text ++ more) (m + n) := by
  induction h with
  | nil =>
    rw [Nat.zero_add]
    exact hmore
  | plain hc _ ih => exact .plain hc ih
  | percent _ ih => exact .percent ih
  | @placeholder text k _ ih =>
    rw [Nat.add_right_comm]
    exact .placeholder ih

/-- A percent sign that a literal says is doubled. -/
theorem escapePercent (text : Text) : Counts (Format.escapePercent text) 0 := by
  induction text with
  | nil => exact .nil
  | cons c text ih =>
    rw [Format.escapePercent, List.flatMap_cons]
    by_cases hc : c = '%'
    · rw [if_pos hc]
      exact .percent ih
    · rw [if_neg hc]
      exact .plain hc ih

/-- In front of a character that is no second half of a pair, a text can be cut. -/
theorem cut {front rest : Text} {c : Char} (h : Counts (front ++ c :: rest) n)
    (hc : c ≠ '%' ∧ c ≠ 's') :
    ∃ k l, Counts front k ∧ Counts (c :: rest) l ∧ n = k + l := by
  generalize htext : front ++ c :: rest = text at h
  -- The units of the text are gone through. The cut cannot be inside a pair, since its second half
  -- would be the character.
  induction h generalizing front with
  | nil => exact absurd htext (List.append_ne_nil_of_right_ne_nil _ (List.cons_ne_nil _ _))
  | @plain d text n hd h ih =>
    rcases front with _ | ⟨_, front⟩
    · rw [List.nil_append] at htext
      rw [htext]
      exact ⟨0, n, .nil, .plain hd h, (Nat.zero_add n).symm⟩
    · injection htext with hfirst hrest
      rcases ih hrest with ⟨k, l, hfront, hback, rfl⟩
      exact ⟨k, l, .plain (hfirst ▸ hd) hfront, hback, rfl⟩
  | percent _ ih =>
    rcases front with _ | ⟨_, _ | ⟨_, front⟩⟩
    · exact absurd (List.cons.inj htext).1 hc.1
    · exact absurd (List.cons.inj (List.cons.inj htext).2).1 hc.1
    · injection htext with hfirst hrest
      injection hrest with hsecond hrest
      rcases ih hrest with ⟨k, l, hfront, hback, rfl⟩
      exact ⟨k, l, hfirst ▸ hsecond ▸ .percent hfront, hback, rfl⟩
  | placeholder _ ih =>
    rcases front with _ | ⟨_, _ | ⟨_, front⟩⟩
    · exact absurd (List.cons.inj htext).1 hc.1
    · exact absurd (List.cons.inj (List.cons.inj htext).2).1 hc.2
    · injection htext with hfirst hrest
      injection hrest with hsecond hrest
      rcases ih hrest with ⟨k, l, hfront, hback, rfl⟩
      exact ⟨k + 1, l, hfirst ▸ hsecond ▸ .placeholder hfront, hback, Nat.add_right_comm k l 1⟩

/-! ## Joining -/

/-- Something without percent signs in the place of the last character. -/
theorem replaceLast {c : Char} (h : Counts text n) (hlast : text.getLast? = some c)
    (hc : c ≠ '%' ∧ c ≠ 's') (hmore : Counts more 0) : Counts (text.dropLast ++ more) n := by
  rw [eq_concat_of_getLast? hlast] at h
  rcases h.cut hc with ⟨k, l, hfront, hback, rfl⟩
  cases hback with
  | plain _ hnil =>
    cases hnil
    exact hfront.append hmore

/-- What is written at a border is no percent sign, and stands in no pair. -/
theorem guard (h : Counts out n) : Counts (Join.guard out first piece) n := by
  have hplain {c : Char} (hc : c ≠ '%') {text : Text} (h : Counts text 0) : Counts (c :: text) 0 :=
    .plain hc h
  rw [Join.guard]
  split
  · -- A backslash in front of the dollar sign at the end.
    rename_i hdollar
    rw [Bool.and_eq_true, Bool.and_eq_true, beq_iff_eq] at hdollar
    exact h.replaceLast hdollar.1.1 (by decide) (hplain (by decide) (hplain (by decide) .nil))
  split
  · -- The number of the brace in place of it.
    rename_i hbrace
    rw [Bool.and_eq_true, beq_iff_eq] at hbrace
    exact h.replaceLast hbrace.1 (by decide) (hplain (by decide) (hplain (by decide)
      (hplain (by decide) (hplain (by decide) .nil))))
  split
  · split
    · -- Braces around the variable at the end.
      rename_i before name hvariable
      rcases Quoted.variableAtEnd?_eq_some hvariable with ⟨code, rfl, rfl, _, _⟩
      rcases h.cut (by decide) with ⟨k, l, hbefore, hname, rfl⟩
      have hopened : Counts (before ++ '{' :: '$' :: code) (k + l) :=
        hbefore.append (.plain (by decide) hname)
      exact hopened.append (hplain (by decide) .nil)
    · exact h
  · exact h

/-- Joining keeps the pairs of both sides. -/
theorem push (h : Counts out m) (hpiece : Counts piece n) :
    Counts (Join.push out piece) (m + n) := by
  rcases piece with _ | ⟨first, piece⟩
  · cases hpiece
    exact h
  · exact h.guard.append hpiece

/-! ## Counting -/

/-- Taking the quotes off keeps the pairs, also behind a backslash. -/
theorem heredocOfDouble_and_escaped (h : Counts text n) :
    Counts (Escape.heredocOfDouble text) n ∧ Counts (Escape.heredocOfDouble ('\\' :: text)) n := by
  -- A backslash takes the next character along, so the induction needs both statements at once.
  induction h with
  | nil => exact ⟨.nil, .plain (by decide) .nil⟩
  | @plain c text n hc h ih =>
    constructor
    · by_cases hslash : c = '\\'
      · rw [hslash]
        exact ih.2
      · rw [Escape.heredocOfDouble_cons hslash]
        exact .plain hc ih.1
    · by_cases hquote : c = '"'
      · rw [hquote, Escape.heredocOfDouble]
        exact .plain (by decide) ih.1
      · rw [Escape.heredocOfDouble]
        · exact .plain (by decide) (.plain hc ih.1)
        · exact hquote
  | percent _ ih =>
    constructor
    · rw [Escape.heredocOfDouble_cons (by decide), Escape.heredocOfDouble_cons (by decide)]
      exact .percent ih.1
    · rw [Escape.heredocOfDouble, Escape.heredocOfDouble_cons (by decide)]
      · exact .plain (by decide) (.percent ih.1)
      · decide
  | placeholder _ ih =>
    constructor
    · rw [Escape.heredocOfDouble_cons (by decide), Escape.heredocOfDouble_cons (by decide)]
      exact .placeholder ih.1
    · rw [Escape.heredocOfDouble, Escape.heredocOfDouble_cons (by decide)]
      · exact .plain (by decide) (.placeholder ih.1)
      · decide

theorem heredocOfDouble (h : Counts text n) : Counts (Escape.heredocOfDouble text) n :=
  h.heredocOfDouble_and_escaped.1

/-- There are no specifiers to put into another form, and what is counted is the placeholders. -/
theorem placeholders_normalize (h : Counts text n) : placeholders (normalize text) = n := by
  induction h with
  | nil => rfl
  | plain hc _ ih => rw [normalize_cons hc, placeholders_cons hc, ih]
  | percent _ ih => rw [normalize_specifier, if_neg (by decide), placeholders,
      if_neg (by decide), ih, Nat.zero_add]
  | placeholder _ ih => rw [normalize_specifier, if_neg (by decide), placeholders, if_pos rfl, ih,
      Nat.add_comm]

end Counts

end Format

end PhpAssist

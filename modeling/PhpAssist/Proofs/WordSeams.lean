import PhpAssist.Proofs.HeredocSeams

/-!
# Code that is put between other code

What is put into a text meets old characters at both of its ends. It is read as it is by itself
where no token goes on over such a seam: where no `<` meets another one, and no character of a name
meets one, or a `$` or a backslash that begins a name.

A condition begins with a keyword, so it can stand behind every token that does not go on over the
seam, with something in between or not.

## Main definitions

* `Text.runsInto`: A character that a token may go on with behind another one.
* `Text.Apart`: Two texts with no token that goes on from one in the other.

## Theorems

* `Lexer.scan_keyword`, `Text.Apart.joins_if`: A condition behind other code.
-/

namespace PhpAssist

open Text

namespace Text

/-- Whether a token that ends in the character `b` may go on with the character `c` behind it. Two
    `<` begin an operator or a heredoc, a `$` or a backslash begins a name. -/
def runsInto (b c : Char) : Bool :=
  (b == '<' && c == '<') || ((isIdentContinue b || b == '$' || b == '\\') && isIdentContinue c)

/-- No token goes on over the seam of two texts. -/
def Apart (front back : Text) : Prop :=
  (front.getLast?.any fun b => back.head?.any (runsInto b)) = false

instance (front back : Text) : Decidable (Apart front back) :=
  inferInstanceAs (Decidable (_ = _))

variable {front back : Text} {b c : Char}

theorem Apart.runsInto_eq (h : Apart front back) (hb : front.getLast? = some b)
    (hc : back.head? = some c) : runsInto b c = false := by
  rw [Apart, hb, hc] at h
  exact h

/-- What is in front of a character of a name ends in none that goes on with it. -/
theorem Apart.ends (h : Apart front (c :: back)) (hc : isIdentContinue c = true)
    (hb : front.getLast? = some b) : isIdentContinue b = false ∧ b ≠ '$' ∧ b ≠ '\\' := by
  have hruns := h.runsInto_eq hb rfl
  rw [runsInto, hc, Bool.and_true, Bool.or_eq_false_iff, Bool.or_eq_false_iff,
    Bool.or_eq_false_iff, beq_eq_false_iff_ne, beq_eq_false_iff_ne] at hruns
  exact ⟨hruns.2.1.1, hruns.2.1.2, hruns.2.2⟩

theorem Apart.of_append {before : Text} (h : Apart (before ++ front) back) : Apart front back := by
  rw [Apart, List.getLast?_append] at h
  rcases hlast : front.getLast? with _ | b
  · rw [Apart, hlast]
    rfl
  · rw [hlast, Option.some_or] at h
    rwa [Apart, hlast]

end Text

namespace Heredoc

/-- What closes a heredoc ends in a character of a name. -/
theorem Closes.getLast? {name taken rest : Text} (h : Closes name taken rest)
    (hname : IsLabel name) : ∃ b, taken.getLast? = some b ∧ isIdentContinue b = true := by
  induction h with
  | here _ _ =>
    rcases hname with ⟨c, more, rfl, hc, hmore⟩
    rcases List.eq_nil_or_concat more with rfl | ⟨front, d, rfl⟩
    · exact ⟨c, by rw [List.getLast?_concat], by rw [isIdentContinue, hc, Bool.true_or]⟩
    · refine ⟨d, ?_, hmore d (List.concat_eq_append ▸ List.mem_append_right _ List.mem_cons_self)⟩
      rw [List.concat_eq_append, ← List.cons_append, ← List.append_assoc, List.getLast?_concat]
  | line _ _ _ ih =>
    rcases ih with ⟨b, hb, hident⟩
    refine ⟨b, ?_, hident⟩
    rw [List.getLast?_append, List.getLast?_cons, hb]
    rfl

end Heredoc

namespace Lexer

variable {taken old : Text} {kind : Kind}

/-- Behind its first character a name has characters of names and backslashes. -/
theorem mem_nameTail (text : Text) :
    ∀ c ∈ (nameTail text).taken, isIdentContinue c = true ∨ c = '\\' := by
  fun_induction nameTail text with
  | case1 => exact List.forall_mem_nil _
  | case2 c rest hident ih => exact List.forall_mem_cons.mpr ⟨.inl hident, ih⟩
  | case3 c rest _ hslash ih => exact List.forall_mem_cons.mpr ⟨.inr hslash.1, ih⟩
  | case4 => exact List.forall_mem_nil _

/-- No spelling has a character of a name. -/
theorem punctuation_ident : ∀ entry ∈ punctuation,
    entry.1.toList.any isIdentContinue = false := by
  decide +kernel

/-- Operators, numbers and strings in front of a keyword. Behind nothing but what may be glued to it
    the keyword begins a token of its own. -/
theorem scanPlain_keyword {c : Char} {more : Text} (hapart : Apart (c :: taken) ('i' :: more))
    (h : scanPlain c (taken ++ old) = (kind, ⟨c :: taken, old, true⟩)) :
    scanPlain c (taken ++ 'i' :: more) = (kind, ⟨c :: taken, 'i' :: more, true⟩) := by
  have hnumber : Number.Ends [] ('i' :: more) := ⟨fun _ => rfl, rfl⟩
  have hends {b : Char} (hb : (c :: taken).getLast? = some b) := hapart.ends rfl hb
  -- Names and variables end in a character that would go on with the keyword.
  have hname (hall : ∀ d ∈ c :: taken, isIdentContinue d = true ∨ d = '$' ∨ d = '\\') : False := by
    rcases hlast : (c :: taken).getLast? with _ | b
    · exact List.cons_ne_nil c taken (List.getLast?_eq_none_iff.mp hlast)
    · rcases hends hlast with ⟨hident, hdollar, hslash⟩
      rcases hall b (List.mem_of_getLast? hlast) with hb | hb | hb
      · exact Bool.false_ne_true (hident.symm.trans hb)
      · exact hdollar hb
      · exact hslash hb
  -- A character that begins a name in front of a letter is followed by one already.
  have hbegins {d : Char} (hd : d = '$' ∨ d = '\\')
      (hold : ¬ (c = d ∧ (taken ++ old).head?.any isIdentStart = true)) :
      ¬ (c = d ∧ (taken ++ 'i' :: more).head?.any isIdentStart = true) := by
    rintro ⟨rfl, hany⟩
    rcases taken with _ | ⟨e, taken⟩
    · rcases hends rfl with ⟨_, hdollar, hslash⟩
      exact hd.elim hdollar hslash
    · exact hold ⟨rfl, hany⟩
  unfold scanPlain at h ⊢
  split at h
  -- A variable is a dollar sign and a run of name characters.
  · rename_i hvariable
    rw [Prod.mk.injEq, Cut.cons_eq_iff] at h
    refine absurd (List.forall_mem_cons.mpr ⟨.inr (.inl hvariable.1), fun d hd => ?_⟩) hname
    exact .inl ((Cut.run_eq_iff.mp h.2).1 d hd)
  rename_i hvariable
  rw [if_neg (hbegins (.inl rfl) hvariable), ← List.cons_append]
  rw [← List.cons_append] at h
  split at h
  -- A closed string ends at its quote.
  · rename_i hquote
    rw [if_pos hquote]
    rw [Prod.mk.injEq] at h ⊢
    exact ⟨h.1, Quoted.scan_retail _ (List.cons_ne_nil c taken) h.2⟩
  rename_i hsingle
  rw [if_neg hsingle]
  split at h
  · rename_i hquote
    rw [if_pos hquote]
    rw [Prod.mk.injEq] at h ⊢
    exact ⟨h.1, Quoted.scan_retail _ (List.cons_ne_nil c taken) h.2⟩
  rename_i hdouble
  rw [if_neg hdouble]
  split at h
  -- A number that begins with its point, and then one that begins with a digit.
  · rename_i hpoint
    rw [Prod.mk.injEq] at h ⊢
    have hany : (taken ++ 'i' :: more).head?.any Char.isDigit = true := by
      rcases taken with _ | ⟨d, taken⟩
      · exact absurd ((head?_any_of_scanFraction h.2).symm.trans hpoint.2) Bool.false_ne_true
      · exact hpoint.2
    have hold : Number.scanFraction (c :: taken ++ ([] ++ old)) =
        ⟨c :: taken, [] ++ old, true⟩ := h.2
    rw [if_pos ⟨hpoint.1, hany⟩]
    exact ⟨h.1, Number.scanFraction_retail hnumber (List.cons_ne_nil c taken) hold⟩
  rename_i hpoint
  have hpoint' : ¬ (c = '.' ∧ (taken ++ 'i' :: more).head?.any Char.isDigit = true) := by
    rcases taken with _ | ⟨d, taken⟩
    · exact fun hdigit => Bool.false_ne_true hdigit.2
    · exact hpoint
  rw [if_neg hpoint']
  split at h
  · rename_i hfirst
    rw [if_pos hfirst]
    rw [scanNumber, Prod.mk.injEq] at h
    rcases hscan : Number.scan (c :: taken ++ ([] ++ old)) with ⟨float, cut⟩
    rw [show c :: taken ++ old = c :: taken ++ ([] ++ old) from rfl, hscan] at h
    rw [show cut = ⟨c :: taken, [] ++ old, true⟩ from h.2] at hscan
    have hnew := Number.scan_retail hnumber (List.cons_ne_nil c taken) hscan
    rw [scanNumber, show c :: taken ++ 'i' :: more = c :: taken ++ ([] ++ 'i' :: more) from rfl,
      hnew, ← h.1]
    rfl
  rename_i hfirst
  rw [if_neg hfirst]
  split at h
  -- A name, which would take the keyword as well.
  · rename_i hbegun
    rw [scanName, Prod.mk.injEq, Cut.cons_eq_iff] at h
    refine absurd (List.forall_mem_cons.mpr ⟨?_, fun d hd => ?_⟩) hname
    · refine hbegun.imp (fun hc => ?_) fun hslash => .inr hslash.1
      rw [isIdentContinue, hc, Bool.true_or]
    · have hmem := mem_nameTail (taken ++ old) d (by rw [h.2]; exact hd)
      exact hmem.imp_right .inr
  · rename_i hbegun
    rw [not_or] at hbegun
    rw [if_neg (not_or.mpr ⟨hbegun.1, hbegins (.inr rfl) hbegun.2⟩)]
    refine scanPunctuation_cons (List.cons_ne_nil c taken) (fun word _ _ entry hentry hlonger => ?_)
      more h
    -- No spelling of the table has a letter in it.
    have hmem : 'i' ∈ entry.1.toList :=
      hlonger.subset (List.mem_append_right _ List.mem_cons_self)
    exact absurd rfl (List.any_eq_false.mp (punctuation_ident entry hentry) 'i' hmem)

/-- A token in front of a keyword that it does not go on with. -/
theorem scan_keyword (hne : taken ≠ []) {more : Text} (hapart : Apart taken ('i' :: more))
    (h : scan (taken ++ old) = (kind, ⟨taken, old, true⟩)) :
    scan (taken ++ 'i' :: more) = (kind, ⟨taken, 'i' :: more, true⟩) := by
  by_cases hshift : taken = ['<', '<']
  · rw [hshift] at h ⊢
    rw [kind_shift h]
    rfl
  rcases taken with _ | ⟨c, taken⟩
  · exact absurd rfl hne
  have hold : scanFrom c (taken ++ old) = (kind, ⟨c :: taken, old, true⟩) := h
  show scanFrom c (taken ++ 'i' :: more) = _
  rw [scanFrom_eq, ← List.cons_append] at hold ⊢
  split at hold
  -- An open tag is what it was.
  · rename_i htag
    rw [Prod.mk.injEq, Cut.mk.injEq] at hold
    have happend := startsWithOpenTag_append htag hold.2.1 ('i' :: more)
    rw [if_pos happend.1, ← hold.1, show openTag.length = 5 from rfl, happend.2.1, happend.2.2]
  rename_i htag
  rw [Bool.not_eq_true] at htag
  rw [startsWithOpenTag_cons hne (by decide) more htag, if_neg Bool.false_ne_true]
  split at hold
  · rename_i hsome
    rw [scanHeredoc] at hold
    split at hold
    · -- A heredoc ends in its label, which the keyword would go on with.
      rename_i isNowdoc cut hcut
      rw [Prod.mk.injEq] at hold
      rw [hold.2] at hcut
      rcases Heredoc.scan?_eq_some_iff.mp hcut with ⟨line, name, body, htaken, hopens, hcloses⟩
      rcases hcloses.getLast? hopens.isLabel with ⟨b, hb, hident⟩
      have hlast : (c :: taken).getLast? = some b := by
        rw [htaken, List.getLast?_append, hb, Option.some_or]
      exact absurd ((hapart.ends rfl hlast).1.symm.trans hident) Bool.false_ne_true
    · rcases Option.isSome_iff_exists.mp hsome with ⟨rest, hrest⟩
      rw [after?_eq_some hrest, Prod.mk.injEq, Cut.mk.injEq] at hold
      exact absurd hold.2.1.symm hshift
  · rename_i hnone
    have hnone' : (after? ['<', '<', '<'] (c :: taken ++ 'i' :: more)).isSome = false := by
      rw [Option.isSome_eq_false_iff, Option.isNone_iff_eq_none]
      by_contra hsome
      rcases Option.ne_none_iff_exists'.mp hsome with ⟨rest, hrest⟩
      -- Three characters begin a heredoc only if the token had them already.
      have hheads := after?_eq_some hrest
      rcases taken with _ | ⟨d, _ | ⟨e, taken⟩⟩
      · exact absurd (List.cons.inj (List.cons.inj hheads).2).1 (by decide)
      · exact absurd (List.cons.inj (List.cons.inj (List.cons.inj hheads).2).2).1 (by decide)
      · refine hnone ?_
        simp only [List.cons_append, List.nil_append, List.cons.injEq] at hheads
        rw [hheads.1, hheads.2.1, hheads.2.2.1]
        rfl
    rw [hnone', if_neg Bool.false_ne_true]
    exact scanPlain_keyword hapart hold

end Lexer

/-- A condition can stand behind everything that does not go on with its keyword. -/
theorem Text.Apart.joins_if {before more : Text}
    (h : Apart before ('i' :: 'f' :: ' ' :: '(' :: more)) :
    Joins before ('i' :: 'f' :: ' ' :: '(' :: more) := by
  refine ⟨fun b hb => ?_, ?_⟩
  · have hslash : (b == '\\') = false := beq_eq_false_iff_ne.mpr (h.ends rfl hb).2.2
    show isQuiet b 'i' = true
    rw [isQuiet, hslash, Bool.false_and]
    rfl
  · refine @Heredoc.breaks_of_not_isOpeningChar ['i', 'f', ' '] more '(' ?_ rfl rfl
    exact List.forall_mem_cons.mpr
      ⟨rfl, List.forall_mem_cons.mpr ⟨rfl, List.forall_mem_singleton.mpr rfl⟩⟩

end PhpAssist

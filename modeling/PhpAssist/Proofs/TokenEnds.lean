import Mathlib.Data.List.Pairwise
import PhpAssist.Proofs.HeredocEnds

/-!
# Where a token ends

The scanner tells by the first characters what sort of token it reads, and each sort has its own
end. Both survive a change of what comes behind the token: no other sort of token begins there, and
the token ends where it did.

Operators and punctuation are the sort that needs its table. The table has longer spellings first,
so what is taken is the longest spelling that a text begins with; and a spelling never goes on over
a character that continues nothing.

## Theorems

* `Lexer.spelling?_punctuation_iff`: The longest spelling is taken.
* `Lexer.scan_retail`: A token in front of another text.
* `Lexer.spelling_of_scan`: How a token is spelled, by its kind.
-/

namespace PhpAssist

open Text Heredoc

namespace Text

theorem after?_eq_some_iff {head text rest : Text} :
    after? head text = some rest ↔ text = head ++ rest := by
  refine ⟨after?_eq_some, ?_⟩
  rintro rfl
  exact after?_append head rest

end Text

namespace Lexer

/-! ## Operators and punctuation -/

/-- In a table with longer words first, the first word that fits is a longest one. -/
theorem spelling?_eq_some {table : List (String × Kind)} {text : Text} {kind : Kind} {cut : Cut}
    (htable : table.Pairwise fun a b => b.1.toList.length ≤ a.1.toList.length)
    (h : spelling? table text = some (kind, cut)) :
    ∃ word, (word, kind) ∈ table ∧ cut.taken = word.toList ∧ cut.closed = true ∧
      ∀ entry ∈ table, ∀ rest, text = entry.1.toList ++ rest →
        entry.1.toList.length ≤ cut.taken.length := by
  -- By induction on the table, whose spellings get no longer: the first that fits is the longest.
  induction table with
  | nil => exact absurd h (by simp only [spelling?, reduceCtorEq, not_false_eq_true])
  | cons first more ih =>
    rw [List.pairwise_cons] at htable
    rw [spelling?] at h
    split at h
    · rename_i rest hrest
      injection h with h
      injection h with hkind hcut
      rw [← hcut, ← hkind]
      refine ⟨first.1, List.mem_cons_self, rfl, rfl, fun entry hentry _ _ => ?_⟩
      rcases List.mem_cons.mp hentry with rfl | hentry
      · exact Nat.le_refl _
      · exact htable.1 entry hentry
    · rename_i hnone
      rcases ih htable.2 h with ⟨word, hword, htaken, hclosed, hlongest⟩
      refine ⟨word, List.mem_cons_of_mem first hword, htaken, hclosed, ?_⟩
      intro entry hentry rest htext
      rcases List.mem_cons.mp hentry with rfl | hentry
      · rw [after?_eq_some_iff.mpr htext] at hnone
        exact absurd hnone (by simp only [reduceCtorEq, not_false_eq_true])
      · exact hlongest entry hentry rest htext

theorem spelling?_isSome {table : List (String × Kind)} {text rest : Text}
    {entry : String × Kind} (hentry : entry ∈ table) (htext : text = entry.1.toList ++ rest) :
    ∃ kind cut, spelling? table text = some (kind, cut) := by
  -- By induction on the table: the first entry that fits is taken, at the latest the one given.
  induction table with
  | nil => exact absurd hentry List.not_mem_nil
  | cons first more ih =>
    rw [spelling?]
    split
    · exact ⟨_, _, rfl⟩
    · rename_i hnone
      rcases List.mem_cons.mp hentry with rfl | hentry
      · rw [after?_eq_some_iff.mpr htext] at hnone
        exact absurd hnone (by simp only [reduceCtorEq, not_false_eq_true])
      · exact ih hentry

/-- Longer spellings come first, and no spelling comes twice. -/
theorem punctuation_sorted : punctuation.Pairwise fun a b =>
    b.1.toList.length ≤ a.1.toList.length ∧ a.1.toList ≠ b.1.toList := by
  decide +kernel

theorem punctuation_pairwise :
    punctuation.Pairwise fun a b => b.1.toList.length ≤ a.1.toList.length :=
  punctuation_sorted.imp And.left

/-- No spelling has two kinds. -/
theorem punctuation_functional : ∀ a ∈ punctuation, ∀ b ∈ punctuation,
    a.1.toList = b.1.toList → a.2 = b.2 := by
  intro a ha b hb
  have hsymm : Std.Symm fun a b : String × Kind => a.1.toList = b.1.toList → a.2 = b.2 :=
    ⟨fun _ _ h heq => (h heq.symm).symm⟩
  have hpairs : punctuation.Pairwise fun a b => a.1.toList = b.1.toList → a.2 = b.2 :=
    punctuation_sorted.imp fun h heq => absurd heq h.2
  exact hpairs.forall_of_forall (fun _ _ _ => rfl) ha hb

/-- A spelling has at most three characters, and begins with a spelling of one. The characters
    behind its first continue a token. With three of them it goes on from a shorter spelling, or
    its last character continues a token with a character in between. -/
theorem punctuation_spelled : (punctuation.all fun entry =>
    decide (1 ≤ entry.1.toList.length ∧ entry.1.toList.length ≤ 3) &&
    (punctuation.any fun single => single.1.toList == entry.1.toList.take 1) &&
    (entry.1.toList.tail.all fun c => !isCalm c) &&
    (entry.1.toList.length != 3 ||
      !isQuiet (entry.1.toList.getD 1 ' ') (entry.1.toList.getD 2 ' ') ||
      punctuation.any fun shorter => shorter.1.toList == entry.1.toList.take 2)) = true := by
  decide +kernel

theorem punctuation_length : ∀ entry ∈ punctuation,
    1 ≤ entry.1.toList.length ∧ entry.1.toList.length ≤ 3 := by
  intro entry hentry
  have h := List.all_eq_true.mp punctuation_spelled entry hentry
  simp only [Bool.and_eq_true, decide_eq_true_eq] at h
  exact h.1.1.1

/-- Every spelling begins with one of a single character. -/
theorem punctuation_head {entry : String × Kind} (hentry : entry ∈ punctuation) {c : Char}
    {more : Text} (hword : entry.1.toList = c :: more) :
    ∃ single ∈ punctuation, single.1.toList = [c] := by
  have h := List.all_eq_true.mp punctuation_spelled entry hentry
  simp only [Bool.and_eq_true] at h
  rw [hword] at h
  rcases List.any_eq_true.mp h.1.1.2 with ⟨single, hmem, heq⟩
  exact ⟨single, hmem, beq_iff_eq.mp heq⟩

/-- Behind its first character a spelling goes on with characters that continue a token. -/
theorem punctuation_tail : ∀ entry ∈ punctuation, ∀ c ∈ entry.1.toList.tail,
    isCalm c = false := by
  intro entry hentry c hc
  have h := List.all_eq_true.mp punctuation_spelled entry hentry
  simp only [Bool.and_eq_true] at h
  exact (Bool.not_eq_true' _).mp (List.all_eq_true.mp h.1.2 c hc)

/-- A spelling of three characters goes on from a shorter one, or its last character continues a
    token with a character in between. -/
theorem punctuation_three {entry : String × Kind} (hentry : entry ∈ punctuation) {a b c : Char}
    (hword : entry.1.toList = [a, b, c]) :
    isQuiet b c = false ∨ ∃ shorter ∈ punctuation, shorter.1.toList = [a, b] := by
  have h := List.all_eq_true.mp punctuation_spelled entry hentry
  simp only [Bool.and_eq_true] at h
  have hthree := h.2
  rw [hword] at hthree
  rcases Bool.or_eq_true_iff.mp hthree with hquiet | hshorter
  · rcases Bool.or_eq_true_iff.mp hquiet with hlength | hquiet
    · exact absurd hlength Bool.false_ne_true
    · exact .inl ((Bool.not_eq_true' _).mp hquiet)
  · rcases List.any_eq_true.mp hshorter with ⟨shorter, hmem, heq⟩
    exact .inr ⟨shorter, hmem, beq_iff_eq.mp heq⟩

/-- What is taken of an operator or punctuation is the longest spelling. -/
theorem spelling?_punctuation_iff {taken rest : Text} {kind : Kind} :
    spelling? punctuation (taken ++ rest) = some (kind, ⟨taken, rest, true⟩) ↔
      (∃ word, (word, kind) ∈ punctuation ∧ taken = word.toList) ∧
        ∀ entry ∈ punctuation, ∀ more, taken ++ rest = entry.1.toList ++ more →
          entry.1.toList.length ≤ taken.length := by
  constructor
  · intro h
    rcases spelling?_eq_some punctuation_pairwise h with ⟨word, hword, htaken, _, hlongest⟩
    exact ⟨⟨word, hword, htaken⟩, hlongest⟩
  · rintro ⟨⟨word, hword, rfl⟩, hlongest⟩
    rcases spelling?_isSome hword rfl with ⟨kind', cut, hsome⟩
    rcases spelling?_eq_some punctuation_pairwise hsome with ⟨word', hword', htaken, hclosed, hmax⟩
    have hsplits := splits_spelling? hsome
    rw [Cut.Splits, htaken] at hsplits
    have hless := hlongest _ hword' cut.rest hsplits.symm
    have hmore := hmax _ hword rest rfl
    rw [htaken] at hmore
    -- Two spellings of one length at the front of one text are the same.
    rcases List.append_inj hsplits (Nat.le_antisymm hless hmore) with ⟨heq, hrest⟩
    have hkind := punctuation_functional _ hword' _ hword heq
    rw [hsome, show kind' = kind from hkind, ← heq, ← hrest, ← htaken, ← hclosed]

variable {taken between old text : Text}

/-- A spelling that fits the new text but not the old one is not longer than what was taken. -/
theorem length_le_of_follows (hfollows : Follows between text) {entry word : String × Kind}
    (hentry : entry ∈ punctuation) (hword : word ∈ punctuation) (htaken : taken = word.1.toList)
    (hlongest : ∀ entry ∈ punctuation, ∀ more, taken ++ (between ++ old) =
      entry.1.toList ++ more → entry.1.toList.length ≤ taken.length)
    {more : Text} (hmore : taken ++ (between ++ text) = entry.1.toList ++ more) :
    entry.1.toList.length ≤ taken.length := by
  by_contra hless
  rw [← List.append_assoc] at hmore
  -- The longer spelling reaches over what was taken, into what is between or further.
  rcases List.append_eq_append_iff.mp hmore with ⟨excess, hspelling, htext⟩ | ⟨more', hfits, _⟩
  · rcases excess with _ | ⟨c, excess⟩
    · rw [List.append_nil] at hspelling
      refine hless (hlongest entry hentry old ?_)
      rw [hspelling, List.append_assoc]
    rcases between with _ | ⟨b, between⟩
    · -- The spelling goes on over the first character of the new text.
      rw [htext] at hfollows
      have hcalm := hfollows.head_calm
      have htail : c ∈ entry.1.toList.tail := by
        rw [hspelling, List.append_nil]
        rcases taken with _ | ⟨d, taken⟩
        · exact absurd (congrArg List.length htaken) (by
            have := punctuation_length word hword
            rw [List.length_nil]
            omega)
        · exact List.mem_append_right _ List.mem_cons_self
      exact Bool.false_ne_true ((punctuation_tail entry hentry c htail).symm.trans hcalm)
    · -- Only a spelling of three characters reaches that far.
      have hlength := congrArg List.length hspelling
      have hthree := (punctuation_length entry hentry).2
      have hone := (punctuation_length word hword).1
      rw [← htaken] at hone
      simp only [List.length_append, List.length_cons] at hlength
      have hsingle : taken.length = 1 ∧ between = [] ∧ excess = [] := by
        refine ⟨by omega, ?_, ?_⟩
        · rw [← List.length_eq_zero_iff]
          omega
        · rw [← List.length_eq_zero_iff]
          omega
      rcases hsingle with ⟨hsingle, rfl, rfl⟩
      rcases List.length_eq_one_iff.mp hsingle with ⟨a, rfl⟩
      rw [htext] at hfollows
      have hquiet := hfollows.head_quiet
      rcases punctuation_three hentry hspelling with hnot | ⟨shorter, hshorter, hpair⟩
      · exact Bool.false_ne_true (hnot.symm.trans hquiet)
      · have hle := hlongest shorter hshorter old (by rw [hpair]; rfl)
        rw [hpair] at hle
        simp only [List.length_cons, List.length_nil] at hle
        omega
  · refine hless (hlongest entry hentry (more' ++ old) ?_)
    rw [← List.append_assoc, ← List.append_assoc, hfits]

theorem spelling?_retail (hfollows : Follows between text) {kind : Kind}
    (h : spelling? punctuation (taken ++ (between ++ old)) =
      some (kind, ⟨taken, between ++ old, true⟩)) :
    spelling? punctuation (taken ++ (between ++ text)) =
      some (kind, ⟨taken, between ++ text, true⟩) := by
  rcases spelling?_punctuation_iff.mp h with ⟨⟨word, hword, htaken⟩, hlongest⟩
  refine spelling?_punctuation_iff.mpr ⟨⟨word, hword, htaken⟩, ?_⟩
  intro entry hentry more hmore
  exact length_le_of_follows hfollows hentry hword htaken hlongest hmore

/-- Whether a spelling fits is told by the first character. -/
theorem spelling?_eq_none {c : Char} {rest : Text} (other : Text)
    (h : spelling? punctuation (c :: rest) = none) : spelling? punctuation (c :: other) = none := by
  by_contra hsome
  rcases Option.ne_none_iff_exists'.mp hsome with ⟨⟨kind, cut⟩, hcut⟩
  rcases spelling?_eq_some punctuation_pairwise hcut with ⟨word, hword, htaken, _, _⟩
  have hsplits := splits_spelling? hcut
  rw [Cut.Splits] at hsplits
  have hne := taken_spelling?_ne_nil punctuation_ne_nil hcut
  rcases hchars : cut.taken with _ | ⟨d, more⟩
  · exact hne hchars
  rw [hchars, List.cons_append, List.cons.injEq] at hsplits
  rw [hchars] at htaken
  -- Whatever spelling begins a text, its first character alone is one too.
  rcases punctuation_head hword htaken.symm with ⟨single, hsingle, hspelling⟩
  have htext : c :: rest = single.1.toList ++ rest := by
    rw [hspelling, hsplits.1]
    rfl
  rcases spelling?_isSome hsingle htext with ⟨_, _, hfits⟩
  exact absurd (h.symm.trans hfits) (by simp only [reduceCtorEq, not_false_eq_true])

/-- An operator stays what it is in front of a text with which no longer one fits. -/
theorem scanPunctuation_ends {other : Text} (hne : taken ≠ []) {kind : Kind}
    (hlongest : ∀ word ∈ punctuation, taken = word.1.toList →
      (∀ entry ∈ punctuation, ∀ more, taken ++ old = entry.1.toList ++ more →
        entry.1.toList.length ≤ taken.length) →
      ∀ entry ∈ punctuation, ∀ more, taken ++ other = entry.1.toList ++ more →
        entry.1.toList.length ≤ taken.length)
    (h : scanPunctuation (taken ++ old) = (kind, ⟨taken, old, true⟩)) :
    scanPunctuation (taken ++ other) = (kind, ⟨taken, other, true⟩) := by
  rcases taken with _ | ⟨c, taken⟩
  · exact absurd rfl hne
  rw [scanPunctuation] at h ⊢
  -- An unknown character is taken alone, whatever follows it.
  split at h
  · rename_i found hfound
    rw [h] at hfound
    rcases spelling?_punctuation_iff.mp hfound with ⟨⟨word, hword, htaken⟩, hmax⟩
    rw [spelling?_punctuation_iff.mpr ⟨⟨word, hword, htaken⟩, hlongest _ hword htaken hmax⟩]
  · rename_i hnone
    rw [List.cons_append] at hnone
    rw [List.cons_append, spelling?_eq_none _ hnone]
    simp only [List.cons_append, List.take_succ_cons, List.take_zero, List.drop_succ_cons,
      List.drop_zero, Prod.mk.injEq, Cut.mk.injEq, List.cons.injEq, true_and, and_true] at h
    rw [← h.2.1, h.1]
    rfl

theorem scanPunctuation_retail (hfollows : Follows between text) (hne : taken ≠ []) {kind : Kind}
    (h : scanPunctuation (taken ++ (between ++ old)) = (kind, ⟨taken, between ++ old, true⟩)) :
    scanPunctuation (taken ++ (between ++ text)) = (kind, ⟨taken, between ++ text, true⟩) := by
  refine scanPunctuation_ends hne (fun word hword htaken hmax entry hentry more hmore => ?_) h
  exact length_le_of_follows hfollows hentry hword htaken hmax hmore

/-! ## The sort of a token -/

/-- What fits neither the token nor the old text behind it does not fit the new text. -/
theorem append_of_length_le {size : Nat} (hsize : size ≤ (taken ++ between).length) :
    (taken ++ (between ++ text)).take size = (taken ++ (between ++ old)).take size := by
  rw [← List.append_assoc, ← List.append_assoc, List.take_append_of_le_length hsize,
    List.take_append_of_le_length hsize]

/-- The only letters with a given lower case. -/
theorem eq_or_of_toLower {c : Char} {small large : Char}
    (hlarge : large.val + 32 = small.val)
    (h : c.toLower = small) : c = small ∨ c = large := by
  unfold Char.toLower at h
  split at h
  · right
    have hval := congrArg Char.val h
    rw [← hlarge] at hval
    exact Char.ext (UInt32.add_left_inj 32 |>.mp hval)
  · exact .inl h

theorem eq_question_of_toLower {c : Char} (h : c.toLower = '?') : c = '?' := by
  unfold Char.toLower at h
  split at h
  · rename_i hupper
    have hval := congrArg (fun d => d.val.toNat) h
    simp only [ge_iff_le, UInt32.le_iff_toNat_le] at hupper
    simp only [UInt32.toNat_add] at hval
    have hbounds : 'A'.val.toNat = 65 ∧ 'Z'.val.toNat = 90 ∧ ('a'.val - 'A'.val).toNat = 32 ∧
        '?'.val.toNat = 63 := ⟨rfl, rfl, rfl, rfl⟩
    omega
  · exact h

theorem startsWithOpenTag_retail (hfollows : Follows between text) (hne : taken ≠ [])
    (h : startsWithOpenTag (taken ++ (between ++ old)) = false) :
    startsWithOpenTag (taken ++ (between ++ text)) = false := by
  by_contra htag
  rw [Bool.not_eq_false, startsWithOpenTag, beq_iff_eq] at htag
  by_cases hsize : openTag.length ≤ (taken ++ between).length
  · rw [append_of_length_le hsize] at htag
    rw [startsWithOpenTag, beq_eq_false_iff_ne] at h
    exact h htag
  have hfive : openTag.length = 5 := rfl
  rw [hfive] at hsize htag
  have hpos := List.length_pos_iff.mpr hne
  rw [← List.append_assoc] at htag
  -- The tag goes on over the first character of the new text.
  rcases text with _ | ⟨c, rest⟩
  · have hlength := congrArg List.length htag
    rw [List.append_nil, lower, List.length_map, List.length_take, hfive] at hlength
    omega
  have hchar := congrArg (fun tag => tag[(taken ++ between).length]?) htag
  simp only [lower, List.getElem?_map] at hchar
  rw [List.getElem?_take_of_lt (by omega), List.getElem?_append_right (Nat.le_refl _),
    Nat.sub_self, List.getElem?_cons_zero, Option.map_some] at hchar
  have hlower {d : Char} (hd : c.toLower = d) (hmem : d ∈ ['?', 'p', 'h']) :
      c ∈ ['?', 'p', 'P', 'h', 'H'] := by
    simp only [List.mem_cons, List.not_mem_nil, or_false] at hmem
    rcases hmem with rfl | rfl | rfl
    · rw [eq_question_of_toLower hd]
      decide
    · rcases @eq_or_of_toLower c 'p' 'P' rfl hd with rfl | rfl <;> decide
    · rcases @eq_or_of_toLower c 'h' 'H' rfl hd with rfl | rfl <;> decide
  have hsmall : (taken ++ between).length < 5 := by omega
  rw [List.length_append] at hchar hsmall
  by_cases hbetween : between = []
  · subst hbetween
    have hcalm := hfollows.head_calm
    have hmem : c ∈ ['?', 'p', 'P', 'h', 'H'] := by
      have hcases : taken.length = 1 ∨ taken.length = 2 ∨ taken.length = 3 ∨ taken.length = 4 := by
        rw [List.length_nil] at hsmall
        omega
      rw [List.length_nil, Nat.add_zero] at hchar
      rcases hcases with hn | hn | hn | hn
      all_goals
        rw [hn] at hchar
        exact hlower (Option.some.inj hchar) (by decide)
    simp only [List.mem_cons, List.not_mem_nil, or_false] at hmem
    rcases hmem with rfl | rfl | rfl | rfl | rfl
    all_goals exact absurd hcalm (by decide)
  · rcases hlast : between.getLast? with _ | b
    · exact hbetween (List.getLast?_eq_none_iff.mp hlast)
    have hquiet : isQuiet b c = true := hfollows.quiet b hlast
    have hone := List.length_pos_iff.mpr hbetween
    have hmem : c ∈ ['p', 'P', 'h', 'H'] := by
      have hcases : taken.length + between.length = 2 ∨ taken.length + between.length = 3 ∨
          taken.length + between.length = 4 := by
        omega
      rcases hcases with hn | hn | hn
      all_goals
        rw [hn] at hchar
        rcases List.mem_cons.mp (hlower (Option.some.inj hchar) (by decide)) with rfl | hmem
        · exact absurd (Option.some.inj hchar) (by decide)
        · exact hmem
    rw [isQuiet, Bool.and_eq_true, Bool.and_eq_true] at hquiet
    simp only [List.mem_cons, List.not_mem_nil, or_false] at hmem
    rcases hmem with rfl | rfl | rfl | rfl
    all_goals exact absurd hquiet.1.2 (by decide)

/-- A shift operator or the opening of a heredoc is told by three characters. -/
theorem shift_retail (hfollows : Follows between text) (hne : taken ≠ [])
    (hshift : taken ++ between = ['<', '<'] → between = [])
    (h : after? ['<', '<', '<'] (taken ++ (between ++ old)) = none) :
    after? ['<', '<', '<'] (taken ++ (between ++ text)) = none := by
  by_contra hsome
  rcases Option.ne_none_iff_exists'.mp hsome with ⟨rest, hrest⟩
  have hheads := after?_eq_some hrest
  rw [← List.append_assoc] at hheads
  -- The three signs reach over what was taken and what is between, or they were there before.
  rcases List.append_eq_append_iff.mp hheads with ⟨excess, hover, htext⟩ | ⟨more, hfits, _⟩
  · rcases excess with _ | ⟨c, excess⟩
    · have hold : taken ++ (between ++ old) = ['<', '<', '<'] ++ old := by
        rw [hover, List.append_nil, List.append_assoc]
      exact absurd (h.symm.trans (after?_eq_some_iff.mpr hold)) (by
        simp only [reduceCtorEq, not_false_eq_true])
    have hc : c = '<' := by
      have hmem : c ∈ ['<', '<', '<'] := hover ▸ List.mem_append_right _ List.mem_cons_self
      simpa only [List.mem_cons, List.not_mem_nil, or_false, or_self] using hmem
    by_cases hbetween : between = []
    · subst hbetween
      rw [htext] at hfollows
      exact ne_of_isCalm hfollows.head_calm rfl hc
    · -- What is in front is two characters, since neither part of it is empty.
      have hlength := congrArg List.length hover
      have hone := List.length_pos_iff.mpr hne
      have hone' := List.length_pos_iff.mpr hbetween
      simp only [List.length_append, List.length_cons, List.length_nil] at hlength
      refine hbetween (hshift ?_)
      have htwo := congrArg (List.take 2) hover
      rw [List.take_left' (by rw [List.length_append]; omega)] at htwo
      exact htwo.symm
  · have hold : taken ++ (between ++ old) = ['<', '<', '<'] ++ (more ++ old) := by
      rw [← List.append_assoc, ← List.append_assoc, hfits]
    exact absurd (h.symm.trans (after?_eq_some_iff.mpr hold)) (by
      simp only [reduceCtorEq, not_false_eq_true])

/-- A single `<` is no token in front of another. -/
theorem taken_ne_less {kind : Kind} {between : Text}
    (h : scanPunctuation ('<' :: '<' :: between) = (kind, ⟨['<'], '<' :: between, true⟩)) :
    False := by
  rw [scanPunctuation] at h
  -- The longer operator would have been taken.
  split at h
  · rename_i found hfound
    rw [h] at hfound
    have htext : ['<'] ++ '<' :: between = '<' :: '<' :: between := rfl
    rw [← htext] at hfound
    have hle := (spelling?_punctuation_iff.mp hfound).2 ("<<", .operator) (by decide) between rfl
    exact absurd hle (by decide)
  · rename_i hnone
    have hmem : ("<", Kind.operator) ∈ punctuation := by decide
    rcases @spelling?_isSome _ ('<' :: '<' :: between) ('<' :: between) _ hmem rfl with
      ⟨_, _, hfits⟩
    exact absurd (hnone.symm.trans hfits) (by simp only [reduceCtorEq, not_false_eq_true])

theorem length_lower (text : Text) : (lower text).length = text.length := List.length_map _

/-- An opening tag stays one. -/
theorem startsWithOpenTag_append {rest : Text}
    (h : startsWithOpenTag (taken ++ rest) = true) (htaken : (taken ++ rest).take 5 = taken)
    (other : Text) :
    startsWithOpenTag (taken ++ other) = true ∧ (taken ++ other).take 5 = taken ∧
      (taken ++ other).drop 5 = other := by
  rw [startsWithOpenTag, beq_iff_eq] at h
  rw [show openTag.length = 5 from rfl, htaken] at h
  have hlength : taken.length = 5 := by
    rw [← length_lower, h]
    rfl
  refine ⟨?_, List.take_left' hlength, List.drop_left' hlength⟩
  rw [startsWithOpenTag, beq_iff_eq, show openTag.length = 5 from rfl, List.take_left' hlength, h]

/-- The shift operator in front of another text. -/
theorem scanHeredoc_retail (hfollows : Follows between text) (hbreaks : Breaks text)
    (hne : taken ≠ []) {kind : Kind}
    (hshift : (after? ['<', '<', '<'] (taken ++ (between ++ old))).isSome = true)
    (h : scanHeredoc (taken ++ (between ++ old)) = (kind, ⟨taken, between ++ old, true⟩)) :
    (after? ['<', '<', '<'] (taken ++ (between ++ text))).isSome = true ∧
        scanHeredoc (taken ++ (between ++ text)) = (kind, ⟨taken, between ++ text, true⟩) ∨
      taken = ['<', '<'] ∧ between = [] ∧ kind = .operator := by
  rcases Option.isSome_iff_exists.mp hshift with ⟨after, hafter⟩
  rw [scanHeredoc] at h
  split at h
  · rename_i isNowdoc cut hcut
    rw [Prod.mk.injEq] at h
    rw [h.2] at hcut
    rcases scan?_eq_some_iff.mp hcut with ⟨line, name, more, htaken, hopens, hcloses⟩
    -- A heredoc ends in front of a character that continues no name.
    have hrest : (between ++ old).head?.any isIdentContinue = false := by
      clear htaken hcut
      generalize between ++ old = rest at hcloses
      induction hcloses with
      | here _ hrest => exact hrest
      | line _ _ _ ih => exact ih
    have hscan := scan?_retail hcut
      (hfollows.any_head (fun c hc => isIdentContinue_of_isCalm hc) hrest)
    refine .inl ⟨?_, ?_⟩
    · rw [htaken]
      cases hopens
      rfl
    · rw [scanHeredoc, hscan]
      exact congrArg (fun kind => (kind, (⟨taken, between ++ text, true⟩ : Cut))) h.1
  · rename_i hnone
    -- No heredoc opens, so the shift is taken with a third sign behind it.
    have hheads := after?_eq_some hafter
    rw [hheads, Prod.mk.injEq, Cut.mk.injEq] at h
    rcases h with ⟨hkind, htaken, hrest, _⟩
    have htaken' : taken = ['<', '<'] := htaken.symm
    have hrest' : between ++ old = '<' :: after := hrest.symm
    by_cases hbetween : between = []
    · exact .inr ⟨htaken', hbetween, hkind.symm⟩
    refine .inl ?_
    rcases between with _ | ⟨b, between⟩
    · exact absurd rfl hbetween
    rw [List.cons_append, List.cons.injEq] at hrest'
    rw [scanHeredoc, Heredoc.scan?] at *
    rw [Option.map_eq_none_iff] at hnone
    rw [opening?_retail hne hbreaks hnone, htaken', hrest'.1, ← hkind]
    exact ⟨rfl, rfl⟩

/-- Takes one token that is not the opening tag and does not begin as a heredoc does. -/
def scanPlain (c : Char) (rest : Text) : Kind × Cut :=
  if c = '$' ∧ rest.head?.any isIdentStart then
    (.variableName, (Cut.run isIdentContinue rest).cons c)
  else if c = '\'' then (.singleQuotedString, Quoted.scan (c :: rest))
  else if c = '"' then (.doubleQuotedString, Quoted.scan (c :: rest))
  else if c = '.' ∧ rest.head?.any Char.isDigit then
    (.floatNumber, Number.scanFraction (c :: rest))
  else if c.isDigit then scanNumber (c :: rest)
  else if isIdentStart c ∨ (c = '\\' ∧ rest.head?.any isIdentStart) then scanName c rest
  else scanPunctuation (c :: rest)

theorem scanFrom_eq (c : Char) (rest : Text) : scanFrom c rest =
    if startsWithOpenTag (c :: rest) then
      (.openTag, ⟨(c :: rest).take openTag.length, (c :: rest).drop openTag.length, true⟩)
    else if (after? ['<', '<', '<'] (c :: rest)).isSome then scanHeredoc (c :: rest)
    else scanPlain c rest :=
  rfl

theorem scanPlain_less (rest : Text) : scanPlain '<' rest = scanPunctuation ('<' :: rest) := rfl

/-- Where a run took nothing, none of its characters comes next. -/
theorem head?_any_of_run {p q : Char → Bool} (hpq : ∀ c, q c = true → p c = true)
    {taken rest : Text} (h : Cut.run p (taken ++ rest) = ⟨taken, rest, true⟩) :
    rest.head?.any q = false := by
  have hrest := (Cut.run_eq_iff.mp h).2
  rcases rest with _ | ⟨d, rest⟩
  · rfl
  · have hd : p d = false := hrest
    show q d = false
    by_contra hq
    rw [Bool.not_eq_false] at hq
    exact Bool.false_ne_true (hd.symm.trans (hpq d hq))

/-- Where a name took nothing, no letter comes next. -/
theorem head?_any_of_nameTail {rest : Text} (h : nameTail rest = ⟨[], rest, true⟩) :
    rest.head?.any isIdentStart = false := by
  rcases rest with _ | ⟨d, rest⟩
  · rfl
  · have hd := (nameTail_eq_nil_iff.mp h).1
    rw [isIdentContinue, Bool.or_eq_false_iff] at hd
    exact hd.1

/-- Where the digits of a fraction are nothing, no digit comes next. -/
theorem head?_any_of_scanFraction {c : Char} {rest : Text}
    (h : Number.scanFraction (c :: rest) = ⟨[c], rest, true⟩) :
    rest.head?.any Char.isDigit = false := by
  rcases rest with _ | ⟨d, rest⟩
  · rfl
  show d.isDigit = false
  by_contra hd
  rw [Bool.not_eq_false] at hd
  have hdigit : Number.isDigit d = true := by rw [Number.isDigit, hd, Bool.true_or]
  have htaken := congrArg Cut.taken h
  simp only [Number.scanFraction, Number.digits, Cut.run, Cut.cons, Cut.andThen, Cut.prepend,
    List.takeWhile_cons, hdigit, if_true, List.cons_append, List.cons.injEq, reduceCtorEq,
    and_false] at htaken

/-- Whether a character of a name comes behind what is in between does not change. -/
theorem any_head_retail (hname : EndsName between text) {q : Char → Bool}
    (hq : ∀ c, q c = true → isIdentContinue c = true)
    (hnone : (between ++ old).head?.any q = false) : (between ++ text).head?.any q = false := by
  rcases between with _ | ⟨b, between⟩
  · have hnear := hname.near rfl
    rcases text with _ | ⟨d, rest⟩
    · rfl
    · rw [List.head?_cons, Option.all_some, Bool.and_eq_true, Bool.not_eq_true'] at hnear
      show q d = false
      rw [Bool.eq_false_iff]
      exact fun hd => Bool.false_ne_true (hnear.1.symm.trans (hq d hd))
  · exact hnone

/-- What comes behind the first character of a token does not change either, unless the token ends
    there and was not followed by such a character. -/
theorem any_head_taken (hname : EndsName between text) {q : Char → Bool}
    (hq : ∀ c, q c = true → isIdentContinue c = true) (front rest : Text)
    (hnone : front = [] → (between ++ rest).head?.any q = false) :
    (front ++ (between ++ text)).head?.any q = (front ++ (between ++ rest)).head?.any q := by
  rcases front with _ | ⟨d, front⟩
  · rw [List.nil_append, List.nil_append, hnone rfl, any_head_retail hname hq (hnone rfl)]
  · rfl

theorem not_any_head_taken (hname : EndsName between text) {q : Char → Bool} {p : Prop}
    (hq : ∀ c, q c = true → isIdentContinue c = true)
    (hold : ¬ (p ∧ (taken ++ (between ++ old)).head?.any q = true)) :
    ¬ (p ∧ (taken ++ (between ++ text)).head?.any q = true) := by
  rintro ⟨hp, hany⟩
  have hnone : (taken ++ (between ++ old)).head?.any q = false := by
    rw [Bool.eq_false_iff]
    exact fun hany => hold ⟨hp, hany⟩
  rw [any_head_taken hname hq taken old (by rintro rfl; exact hnone), hnone] at hany
  exact Bool.false_ne_true hany

/-- The sorts of tokens that are told by their first two characters, in front of a text that continues
    neither a name nor a number, nor the operator if the token is one. -/
theorem scanPlain_ends (hname : EndsName between text) (hnumber : Number.Ends between text)
    {c : Char} {kind : Kind}
    (hpunctuation : scanPunctuation (c :: taken ++ (between ++ old)) =
        (kind, ⟨c :: taken, between ++ old, true⟩) →
      scanPunctuation (c :: taken ++ (between ++ text)) =
        (kind, ⟨c :: taken, between ++ text, true⟩))
    (h : scanPlain c (taken ++ (between ++ old)) = (kind, ⟨c :: taken, between ++ old, true⟩)) :
    scanPlain c (taken ++ (between ++ text)) = (kind, ⟨c :: taken, between ++ text, true⟩) := by
  have hstart : ∀ c, isIdentStart c = true → isIdentContinue c = true := fun c hc => by
    rw [isIdentContinue, hc, Bool.true_or]
  have hdigit : ∀ c : Char, c.isDigit = true → isIdentContinue c = true := fun c hc => by
    rw [isIdentContinue, hc, Bool.or_true]
  unfold scanPlain at h ⊢
  -- The tests for the sorts of tokens go on as before, one behind the other.
  split at h
  · rename_i hvariable
    rw [Prod.mk.injEq, Cut.cons_eq_iff] at h
    have hany := any_head_taken hname hstart taken old fun hnil => by
      subst hnil
      exact head?_any_of_run hstart h.2
    rw [hany, if_pos hvariable, ← h.1, Prod.mk.injEq, Cut.cons_eq_iff]
    exact ⟨rfl, Cut.run_retail h.2 (any_head_retail hname (fun _ hc => hc) (Cut.run_eq_iff.mp h.2).2)⟩
  rename_i hvariable
  rw [if_neg (not_any_head_taken hname hstart hvariable)]
  rw [← List.cons_append] at h ⊢
  split at h
  · rename_i hquote
    rw [if_pos hquote]
    rw [Prod.mk.injEq] at h ⊢
    exact ⟨h.1, Quoted.scan_retail _ (List.cons_ne_nil c taken) h.2⟩
  rename_i hsingle
  rw [if_neg hsingle]
  split at h
  · rename_i hquote
    rw [if_pos hquote]
    rw [Prod.mk.injEq] at h ⊢
    exact ⟨h.1, Quoted.scan_retail _ (List.cons_ne_nil c taken) h.2⟩
  rename_i hdouble
  rw [if_neg hdouble]
  split at h
  · rename_i hpoint
    rw [Prod.mk.injEq] at h ⊢
    have hany := any_head_taken hname hdigit taken old fun hnil => by
      subst hnil
      exact head?_any_of_scanFraction h.2
    rw [hany, if_pos hpoint]
    exact ⟨h.1, Number.scanFraction_retail hnumber (List.cons_ne_nil c taken) h.2⟩
  rename_i hpoint
  rw [if_neg (not_any_head_taken hname hdigit hpoint)]
  split at h
  · rename_i hfirst
    rw [if_pos hfirst]
    rw [scanNumber, Prod.mk.injEq] at h
    rcases hscan : Number.scan (c :: taken ++ (between ++ old)) with ⟨float, cut⟩
    rw [hscan] at h
    rw [show cut = _ from h.2] at hscan
    rw [scanNumber, Number.scan_retail hnumber (List.cons_ne_nil c taken) hscan, ← h.1]
  rename_i hfirst
  rw [if_neg hfirst]
  split at h
  · rename_i hbegun
    rw [scanName, Prod.mk.injEq, Cut.cons_eq_iff] at h
    have hbegun' : isIdentStart c = true ∨
        (c = '\\' ∧ (taken ++ (between ++ text)).head?.any isIdentStart = true) := by
      refine hbegun.imp id fun hbackslash => ⟨hbackslash.1, ?_⟩
      rw [any_head_taken hname hstart taken old fun hnil => ?_]
      · exact hbackslash.2
      · subst hnil
        exact head?_any_of_nameTail h.2
    rw [if_pos hbegun', scanName, nameTail_retail hname h.2, ← h.1, h.2]
    rfl
  · rename_i hbegun
    have hbegun' : ¬ (isIdentStart c = true ∨
        (c = '\\' ∧ (taken ++ (between ++ text)).head?.any isIdentStart = true)) := by
      rw [not_or] at hbegun ⊢
      exact ⟨hbegun.1, not_any_head_taken hname hstart hbegun.2⟩
    rw [if_neg hbegun']
    exact hpunctuation h

theorem scanPlain_retail (hfollows : Follows between text) {c : Char} {kind : Kind}
    (h : scanPlain c (taken ++ (between ++ old)) = (kind, ⟨c :: taken, between ++ old, true⟩)) :
    scanPlain c (taken ++ (between ++ text)) = (kind, ⟨c :: taken, between ++ text, true⟩) :=
  scanPlain_ends (endsName_of_follows hfollows) hfollows.endsNumber
    (scanPunctuation_retail hfollows (List.cons_ne_nil c taken)) h

/-- A shift operator in front of a text that continues no token. -/
theorem scan_shift (hfollows : Follows [] text) :
    scan (['<', '<'] ++ text) = (.operator, ⟨['<', '<'], text, true⟩) := by
  -- A text that follows a shift begins with no further sign.
  have hnone : after? ['<', '<', '<'] ('<' :: '<' :: text) = none := by
    rcases text with _ | ⟨c, rest⟩
    · rfl
    · have hne : ¬ '<' = c := Ne.symm (ne_of_isCalm hfollows.head_calm rfl)
      simp only [after?, if_true, if_neg hne]
  have hold : spelling? punctuation (['<', '<'] ++ ([] ++ ['<'])) =
      some (.operator, ⟨['<', '<'], [] ++ ['<'], true⟩) := rfl
  show scanFrom '<' ('<' :: text) = _
  rw [scanFrom_eq, show startsWithOpenTag ('<' :: '<' :: text) = false from rfl, hnone,
    if_neg Bool.false_ne_true, Option.isSome_none, if_neg Bool.false_ne_true, scanPlain_less,
    scanPunctuation]
  have hspelling := spelling?_retail hfollows hold
  rw [List.nil_append] at hspelling
  rw [show '<' :: '<' :: text = ['<', '<'] ++ text from rfl, hspelling]

/-- A token in front of another text that continues none of its sort. -/
theorem scan_retail (hfollows : Follows between text) (hbreaks : Breaks text) (hne : taken ≠ [])
    {kind : Kind}
    (h : scan (taken ++ (between ++ old)) = (kind, ⟨taken, between ++ old, true⟩)) :
    scan (taken ++ (between ++ text)) = (kind, ⟨taken, between ++ text, true⟩) := by
  rcases taken with _ | ⟨c, taken⟩
  · exact absurd rfl hne
  have hold : scanFrom c (taken ++ (between ++ old)) =
      (kind, ⟨c :: taken, between ++ old, true⟩) := h
  show scanFrom c (taken ++ (between ++ text)) = _
  rw [scanFrom_eq, ← List.cons_append] at hold ⊢
  -- The tests are for the opening tag, for three signs, and then for the plain sorts.
  split at hold
  · rename_i htag
    rw [Prod.mk.injEq, Cut.mk.injEq] at hold
    have happend := startsWithOpenTag_append htag hold.2.1 (between ++ text)
    rw [if_pos happend.1, ← hold.1, show openTag.length = 5 from rfl, happend.2.1, happend.2.2]
  rename_i htag
  rw [Bool.not_eq_true] at htag
  rw [startsWithOpenTag_retail hfollows hne htag, if_neg Bool.false_ne_true]
  split at hold
  · rename_i hshift
    rcases scanHeredoc_retail hfollows hbreaks hne hshift hold with hheredoc | ⟨hpair, rfl, rfl⟩
    · rw [if_pos hheredoc.1]
      exact hheredoc.2
    · rw [List.cons.injEq] at hpair
      rcases hpair with ⟨rfl, rfl⟩
      have hscan := scan_shift hfollows
      rw [show scan (['<', '<'] ++ text) = scanFrom '<' ('<' :: text) from rfl, scanFrom_eq] at hscan
      exact hscan
  · rename_i hshift
    rw [Bool.not_eq_true, Option.isSome_eq_false_iff, Option.isNone_iff_eq_none] at hshift
    have hnone : after? ['<', '<', '<'] (c :: taken ++ (between ++ text)) = none := by
      refine shift_retail hfollows hne (fun hpair => ?_) hshift
      by_contra hbetween
      rcases between with _ | ⟨b, between⟩
      · exact hbetween rfl
      rcases taken with _ | ⟨d, taken⟩
      · rw [List.singleton_append, List.cons.injEq, List.cons.injEq] at hpair
        rcases hpair with ⟨rfl, rfl, rfl⟩
        exact taken_ne_less hold
      · have hlength := congrArg List.length hpair
        simp only [List.length_append, List.length_cons, List.length_nil] at hlength
        omega
    rw [hnone, if_neg (by simp only [Option.isSome_none, Bool.false_eq_true, not_false_eq_true])]
    exact scanPlain_retail hfollows hold

/-! ## What a token looks like -/

/-- How a token is spelled, where its kind tells. -/
inductive Spelling (text : Text) : Kind → Cut → Prop
  | dollar {rest : Text} (htext : text = '$' :: rest) :
      Spelling text .variableName ((Cut.run isIdentContinue rest).cons '$')
  | single (htext : text.head? = some '\'') : Spelling text .singleQuotedString (Quoted.scan text)
  | double (htext : text.head? = some '"') : Spelling text .doubleQuotedString (Quoted.scan text)
  | heredoc {isNowdoc : Bool} {cut : Cut} (hfound : Heredoc.scan? text = some (isNowdoc, cut)) :
      Spelling text (if isNowdoc then .nowdocString else .heredocString) cut
  | mark {word : String} {kind : Kind} {cut : Cut} (hword : (word, kind) ∈ punctuation)
      (htaken : cut.taken = word.toList) : Spelling text kind cut
  | other {kind : Kind} {cut : Cut} (hstring : kind.isString = false)
      (hkind : kind ∉ [.variableName, .equals, .assignOp]) : Spelling text kind cut

/-- Every token that is read is spelled by its kind. -/
theorem spelling_of_scan {text : Text} {kind : Kind} {cut : Cut} (h : scan text = (kind, cut)) :
    Spelling text kind cut := by
  have hkeywords : ∀ entry ∈ Kind.keywords,
      entry.2.isString = false ∧ entry.2 ∉ [Kind.variableName, .equals, .assignOp] := by decide
  rcases text with _ | ⟨c, rest⟩
  · rw [scan, Prod.mk.injEq] at h
    rw [← h.1]
    exact .other rfl (by decide)
  rw [scan] at h
  revert h
  -- One case for each sort of token that the scanner tells by its first characters.
  fun_cases scanFrom c rest with
  | case1 | case6 =>
    rintro ⟨⟩
    exact .other rfl (by decide)
  | case2 =>
    intro h
    rw [scanHeredoc] at h
    split at h
    · rename_i hfound
      rcases h with ⟨⟩
      exact .heredoc hfound
    · rcases h with ⟨⟩
      exact .other rfl (by decide)
  | case3 =>
    rename_i hdollar
    rintro ⟨⟩
    rw [hdollar.1]
    exact .dollar rfl
  | case4 =>
    rename_i hquote
    rintro ⟨⟩
    exact .single (congrArg some hquote)
  | case5 =>
    rename_i hquote
    rintro ⟨⟩
    exact .double (congrArg some hquote)
  | case7 =>
    rintro ⟨⟩
    split
    · exact .other rfl (by decide)
    · exact .other rfl (by decide)
  | case8 =>
    rintro ⟨⟩
    rcases hword : Kind.ofKeyword? ((nameTail rest).cons c).taken with _ | found
    · exact .other rfl (by decide)
    · rcases Option.map_eq_some_iff.mp hword with ⟨entry, hentry, rfl⟩
      have hplain := hkeywords entry (List.mem_of_find?_eq_some hentry)
      exact .other hplain.1 hplain.2
  | case9 =>
    intro h
    rw [scanPunctuation] at h
    split at h
    · rename_i found hfound
      rw [h] at hfound
      rcases spelling?_eq_some punctuation_pairwise hfound with ⟨word, hword, htaken, _, _⟩
      exact .mark hword htaken
    · rcases h with ⟨⟩
      exact .other rfl (by decide)

end Lexer

end PhpAssist

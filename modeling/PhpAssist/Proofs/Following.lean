import Mathlib.Data.List.TakeWhile
import PhpAssist.Token.Lexer

/-!
# What comes behind a token

A token ends where the characters behind it no longer continue it. When a text is cut behind a
token and goes on differently, the token stays what it was, provided that the new text does not
continue it either. Most scanners look one character ahead; a number looks two ahead, and a name
that stops at a backslash too.

A text follows safely when it begins with a character that continues nothing. Where at least one
character of the old text stays in between, less is asked of it.

## Main definitions

* `Text.isCalm`: The characters that continue no token.
* `Text.isQuiet`: The characters that continue no token with a character in between.
* `Text.Follows`: A text can stand behind the rest of another one.

## Theorems

* `Trivia.Takes.retail`: Trivia in front of another text.
* `Lexer.nameTail_retail`, `Number.scan_retail`, `Quoted.scan_retail`: Names, numbers and strings in
  front of another text.
-/

namespace PhpAssist

/-! ## Runs -/

namespace Cut

/-- What a run takes are the characters up to the first that does not satisfy the predicate. -/
theorem run_eq_iff {p : Char → Bool} {taken rest : Text} :
    run p (taken ++ rest) = ⟨taken, rest, true⟩ ↔
      (∀ c ∈ taken, p c = true) ∧ rest.head?.any p = false := by
  constructor
  · intro h
    injection h with htaken hrest _
    refine ⟨fun c hc => ?_, ?_⟩
    · rw [← htaken] at hc
      exact (List.mem_takeWhile_imp hc)
    · have hhead := List.head?_dropWhile_not p (taken ++ rest)
      rw [hrest] at hhead
      rcases rest with _ | ⟨c, rest⟩
      · rfl
      · simpa only [List.head?_cons, Option.any_some, Bool.not_eq_true'] using hhead
  · rintro ⟨htaken, hrest⟩
    -- What follows begins with no character of the run, so the run takes none of it.
    have hnone : rest.takeWhile p = [] ∧ rest.dropWhile p = rest := by
      rcases rest with _ | ⟨c, rest⟩
      · exact ⟨rfl, rfl⟩
      · have hc : p c = false := hrest
        rw [List.takeWhile_cons, List.dropWhile_cons, hc]
        exact ⟨rfl, rfl⟩
    rw [run, List.takeWhile_append_of_pos htaken, List.dropWhile_append_of_pos htaken, hnone.1,
      hnone.2, List.append_nil]

theorem run_retail {p : Char → Bool} {taken rest other : Text}
    (h : run p (taken ++ rest) = ⟨taken, rest, true⟩) (hother : other.head?.any p = false) :
    run p (taken ++ other) = ⟨taken, other, true⟩ :=
  run_eq_iff.mpr ⟨(run_eq_iff.mp h).1, hother⟩

/-- A character in front of what was taken. -/
theorem cons_eq_iff {cut : Cut} {c : Char} {taken rest : Text} {closed : Bool} :
    cut.cons c = ⟨c :: taken, rest, closed⟩ ↔ cut = ⟨taken, rest, closed⟩ := by
  rcases cut with ⟨taken', rest', closed'⟩
  simp only [cons, mk.injEq, List.cons.injEq, true_and]

/-- What a cut takes with a character in front begins with the character. -/
theorem exists_of_cons_eq {cut : Cut} {c : Char} {taken rest : Text} {closed : Bool}
    (h : cut.cons c = ⟨taken, rest, closed⟩) :
    ∃ more, taken = c :: more ∧ cut = ⟨more, rest, closed⟩ := by
  rcases cut with ⟨taken', rest', closed'⟩
  injection h with htaken hrest hclosed
  exact ⟨taken', htaken.symm, by rw [← hrest, ← hclosed]⟩

end Cut

/-! ## Trivia -/

namespace Trivia

/-- Pieces of trivia are taken from a text up to a rest that begins with none. -/
inductive Takes (leading : Bool) : List Trivia → Text → Text → Prop
  | nil {text : Text} (htext : scan? leading text = none) : Takes leading [] text text
  | cons {piece : Trivia} {pieces : List Trivia} {after rest : Text}
      (hpiece : scan? leading (piece.text ++ after) = some (piece.kind, ⟨piece.text, after, true⟩))
      (hmore : Takes leading pieces after rest) :
      Takes leading (piece :: pieces) (piece.text ++ after) rest

theorem takes_scanAll {leading : Bool} {text : Text} (h : (scanAll leading text).closed = true) :
    Takes leading (scanAll leading text).pieces text (scanAll leading text).rest := by
  fun_induction scanAll leading text with
  | case1 text hnone => exact .nil hnone
  | case2 text kind cut hsome more ih =>
    rw [Bool.and_eq_true] at h
    have hsplits := splits_scan? hsome
    rw [Cut.Splits] at hsplits
    have hmore := ih h.2
    rw [← hsplits] at hsome ⊢
    refine @Takes.cons leading ⟨kind, cut.taken⟩ _ _ _ ?_ hmore
    rw [hsome, ← h.1]

theorem Takes.scanAll {leading : Bool} {pieces : List Trivia} {text rest : Text}
    (h : Takes leading pieces text rest) : scanAll leading text = ⟨pieces, rest, true⟩ := by
  -- By induction on the pieces: the scanner takes the first one and is called behind it.
  induction h with
  | nil htext =>
    rw [Trivia.scanAll]
    split
    · rfl
    · rename_i hsome
      exact absurd (htext.symm.trans hsome) (by simp only [reduceCtorEq, not_false_eq_true])
  | cons hpiece _ ih =>
    rw [Trivia.scanAll]
    split
    · rename_i hnone
      exact absurd (hpiece.symm.trans hnone) (by simp only [reduceCtorEq, not_false_eq_true])
    · rename_i kind cut hsome
      have heq := Option.some.inj (hpiece.symm.trans hsome)
      injection heq with hkind hcut
      rw [← hkind, ← hcut]
      dsimp only
      rw [ih]
      rfl

theorem Takes.text_eq {leading : Bool} {pieces : List Trivia} {text rest : Text}
    (h : Takes leading pieces text rest) : text = pieces.flatMap Trivia.text ++ rest := by
  induction h with
  | nil _ => rfl
  | cons _ _ ih => rw [List.flatMap_cons, List.append_assoc, ← ih]

/-- A block comment ends where its end is found. -/
theorem closeComment_retail {taken rest : Text} (other : Text)
    (h : closeComment (taken ++ rest) = ⟨taken, rest, true⟩) :
    closeComment (taken ++ other) = ⟨taken, other, true⟩ := by
  generalize htext : taken ++ rest = text at h
  fun_induction closeComment text generalizing taken with
  | case1 => exact absurd h (by simp only [Cut.mk.injEq, Bool.false_eq_true, and_false,
      not_false_eq_true])
  | case2 body =>
    injection h with htaken _ _
    rw [← htaken]
    rfl
  | case3 c body hend ih =>
    rcases Cut.exists_of_cons_eq h with ⟨more, rfl, hmore⟩
    rw [List.cons_append, List.cons.injEq] at htext
    have hrest := ih htext.2 hmore
    have hcut : closeComment (c :: (more ++ other)) = (closeComment (more ++ other)).cons c := by
      rw [closeComment]
      intro tail hc htail
      -- The end would stand in the old text as well, since a comment is never empty.
      rcases more with _ | ⟨d, more⟩
      · rw [← htext.2, List.nil_append] at hmore
        have hnil : (closeComment rest).taken = [] ∧ (closeComment rest).closed = true := by
          rw [hmore]
          exact ⟨rfl, rfl⟩
        unfold closeComment at hnil
        split at hnil
        · exact Bool.false_ne_true hnil.2
        · exact absurd hnil.1 (List.cons_ne_nil _ _)
        · exact absurd hnil.1 (List.cons_ne_nil _ _)
      · rw [List.cons_append, List.cons.injEq] at htail
        refine hend (more ++ rest) hc ?_
        rw [← htext.2, htail.1, List.cons_append]
    rw [List.cons_append, hcut, Cut.cons_eq_iff]
    exact hrest

/-- Where a run of trivia ends in front of one text, it ends in front of another one. -/
def Stops (rest other : Text) : Prop :=
  ∀ p ∈ [isLineEnd, isSpace, isCommentChar], rest.head?.any p = false → other.head?.any p = false

theorem Stops.same (c : Char) (rest other : Text) : Stops (c :: rest) (c :: other) :=
  fun _ _ h => h

/-- A piece of trivia ends where it did when what follows stops it. -/
theorem scan?_retail {leading : Bool} {kind : TriviaKind} {taken rest other : Text}
    (hstops : Stops rest other)
    (h : scan? leading (taken ++ rest) = some (kind, ⟨taken, rest, true⟩)) :
    scan? leading (taken ++ other) = some (kind, ⟨taken, other, true⟩) := by
  have hne := taken_scan?_ne_nil h
  rcases taken with _ | ⟨d, taken⟩
  · exact absurd rfl hne
  -- A run stops where it did.
  have hrun {p : Char → Bool} (hp : p ∈ [isLineEnd, isSpace, isCommentChar])
      (hcut : (Cut.run p (taken ++ rest)).cons d = ⟨d :: taken, rest, true⟩) :
      (Cut.run p (taken ++ other)).cons d = ⟨d :: taken, other, true⟩ := by
    rw [Cut.cons_eq_iff] at hcut ⊢
    exact Cut.run_retail hcut (hstops p hp (Cut.run_eq_iff.mp hcut).2)
  rw [List.cons_append] at h ⊢
  rw [scan?_cons] at h ⊢
  split at h
  · rename_i hline
    rw [if_pos hline]
    rw [Option.some.injEq, Prod.mk.injEq] at h ⊢
    exact ⟨h.1, hrun (by simp only [List.mem_cons, true_or]) h.2⟩
  rename_i hline
  rw [if_neg hline]
  -- Outside of a line end, the first character tells which kind of piece it is.
  split at h
  · rename_i hspace
    rw [if_pos hspace]
    rw [Option.some.injEq, Prod.mk.injEq] at h ⊢
    exact ⟨h.1, hrun (by simp only [List.mem_cons, true_or, or_true]) h.2⟩
  rename_i hspace
  rw [if_neg hspace]
  split at h
  · rename_i hcomment
    rw [Option.some.injEq, Prod.mk.injEq] at h
    have hcomment' : d = '#' ∨ d = '/' ∧ (taken ++ other).head? = some '/' := by
      rcases hcomment with hd | ⟨hd, hslash⟩
      · exact .inl hd
      · refine .inr ⟨hd, ?_⟩
        rcases taken with _ | ⟨e, taken⟩
        · -- The second slash belongs to the comment.
          have hnone := (Cut.run_eq_iff.mp (Cut.cons_eq_iff.mp h.2)).2
          rw [show rest.head? = some '/' from hslash] at hnone
          exact absurd hnone (by decide)
        · exact hslash
    rw [if_pos hcomment', Option.some.injEq, Prod.mk.injEq]
    exact ⟨h.1, hrun (by simp only [List.mem_cons, true_or, or_true]) h.2⟩
  rename_i hcomment
  split at h
  · rename_i body hbody
    rw [Option.some.injEq, Prod.mk.injEq] at h
    rcases Cut.exists_of_cons_eq h.2 with ⟨more, hmore, hstar⟩
    rcases Cut.exists_of_cons_eq hstar with ⟨inner, rfl, hclose⟩
    rw [List.cons.injEq] at hmore
    rw [hmore.2, List.cons_append, List.cons.injEq] at hbody
    rw [← hbody.2] at hclose
    -- A comment between two stars is none up to the end of a line, whatever follows it.
    have hstar' : ¬ ('/' = '#' ∨ '/' = '/' ∧ ('*' :: inner ++ other).head? = some '/') := by
      simp only [List.cons_append, List.head?_cons, Option.some.injEq]
      decide
    rw [hmore.2, if_neg hstar']
    show some (_, ((closeComment (inner ++ other)).cons '*').cons '/') = some (kind, _)
    rw [Option.some.injEq, Prod.mk.injEq, Cut.cons_eq_iff, Cut.cons_eq_iff]
    exact ⟨h.1, closeComment_retail other hclose⟩
  · exact absurd h (by simp only [reduceCtorEq, not_false_eq_true])

/-- Trivia ends where it did when what follows stops it, and nothing there begins trivia. -/
theorem Takes.retail {leading : Bool} {pieces : List Trivia} {text rest other : Text}
    (h : Takes leading pieces text rest) (hstops : Stops rest other)
    (hother : scan? leading other = none) :
    Takes leading pieces (pieces.flatMap Trivia.text ++ other) other := by
  induction h with
  | nil _ => exact .nil hother
  | @cons piece pieces after final hpiece hmore ih =>
    rw [List.flatMap_cons, List.append_assoc]
    refine .cons ?_ (ih hstops)
    have hafter := hmore.text_eq
    -- What follows the piece begins with the next piece or with what follows all of them.
    rcases hpieces : pieces.flatMap Trivia.text with _ | ⟨d, more⟩
    · rw [hpieces, List.nil_append] at hafter
      rw [hafter] at hpiece
      exact scan?_retail hstops hpiece
    · rw [hpieces, List.cons_append] at hafter
      rw [hafter] at hpiece
      exact scan?_retail (.same d _ _) hpiece

end Trivia

/-! ## What follows -/

namespace Text

/-- The characters that continue no token that ends right in front of them. -/
def isCalm (c : Char) : Bool :=
  !isIdentContinue c &&
    !(['\\', '<', '>', '=', '*', '?', '-', ':', '&', '|', '+', '.', '/'].contains c)

/-- The characters that continue no token that ends in front of the character `b` before them. Only
    a name can go on over a backslash, and only with a letter. -/
def isQuiet (b c : Char) : Bool :=
  !c.isDigit && !(['+', '-', '>', '*', '/', 'p', 'P', 'h', 'H'].contains c) &&
    !(b == '\\' && isIdentStart c)

/-- A text can stand behind `between`, which is the rest of a text behind some token. -/
structure Follows (between text : Text) : Prop where
  calm : between = [] → text.head?.all isCalm = true
  quiet : ∀ b, between.getLast? = some b → text.head?.all (isQuiet b) = true

theorem isQuiet_of_isCalm {c : Char} (h : isCalm c = true) (b : Char) : isQuiet b c = true := by
  rw [isCalm, Bool.and_eq_true, Bool.not_eq_true', Bool.not_eq_true'] at h
  have hne : c.isDigit = false ∧ isIdentStart c = false := by
    have hident := h.1
    rw [isIdentContinue, Bool.or_eq_false_iff] at hident
    exact ⟨hident.2, hident.1⟩
  -- Of the characters that continue something none is calm.
  have hspecial : ['+', '-', '>', '*', '/', 'p', 'P', 'h', 'H'].contains c = false := by
    by_cases hmem : ['+', '-', '>', '*', '/', 'p', 'P', 'h', 'H'].contains c = true
    · simp only [List.contains_cons, Bool.or_eq_true, beq_iff_eq, List.contains_nil,
        Bool.false_eq_true, or_false] at hmem
      rcases hmem with rfl | rfl | rfl | rfl | rfl | rfl | rfl | rfl | rfl
      all_goals
        first
        | exact absurd h.1 (by decide)
        | exact absurd h.2 (by decide)
    · exact Bool.not_eq_true _ ▸ hmem
  rw [isQuiet, hne.1, hspecial, hne.2, Bool.and_false]
  rfl

namespace Follows

variable {between front text : Text}

/-- With more in front of it a text follows as well. -/
theorem append (h : Follows between text) (front : Text) : Follows (front ++ between) text := by
  refine ⟨fun hnil => h.calm (List.append_eq_nil_iff.1 hnil).2, fun b hb => ?_⟩
  rcases hbetween : between with _ | ⟨d, more⟩
  · have hcalm := h.calm hbetween
    rcases htext : text with _ | ⟨c, rest⟩
    · rfl
    · rw [htext] at hcalm
      exact isQuiet_of_isCalm hcalm b
  · rw [hbetween, List.getLast?_append, List.getLast?_cons, Option.some_or,
      ← List.getLast?_cons, ← hbetween] at hb
    exact h.quiet b hb

theorem head_calm {c : Char} {rest : Text} (h : Follows [] (c :: rest)) : isCalm c = true :=
  h.calm rfl

theorem head_quiet {b c : Char} {rest : Text} (h : Follows [b] (c :: rest)) : isQuiet b c = true :=
  h.quiet b rfl

/-- What does not go on with the old text does not go on with the new one. -/
theorem any_head {old : Text} (h : Follows between text) {p : Char → Bool}
    (hp : ∀ c, isCalm c = true → p c = false) (hold : (between ++ old).head?.any p = false) :
    (between ++ text).head?.any p = false := by
  rcases between with _ | ⟨b, between⟩
  · rcases text with _ | ⟨c, rest⟩
    · rfl
    · exact hp c h.head_calm
  · exact hold

end Follows

variable {c : Char}

theorem isIdentContinue_of_isCalm (h : isCalm c = true) : isIdentContinue c = false := by
  rw [isCalm, Bool.and_eq_true, Bool.not_eq_true'] at h
  exact h.1

theorem isIdentStart_of_isCalm (h : isCalm c = true) : isIdentStart c = false := by
  have hident := isIdentContinue_of_isCalm h
  rw [isIdentContinue, Bool.or_eq_false_iff] at hident
  exact hident.1

theorem isDigit_of_isCalm (h : isCalm c = true) : c.isDigit = false := by
  have hident := isIdentContinue_of_isCalm h
  rw [isIdentContinue, Bool.or_eq_false_iff] at hident
  exact hident.2

/-- A character that is not calm is none that is. -/
theorem ne_of_isCalm (h : isCalm c = true) {d : Char} (hd : isCalm d = false) : c ≠ d := by
  intro heq
  rw [heq, hd] at h
  exact Bool.false_ne_true h

theorem ne_of_isQuiet {b : Char} (h : isQuiet b c = true) {d : Char} (hd : isQuiet b d = false) :
    c ≠ d := by
  intro heq
  rw [heq, hd] at h
  exact Bool.false_ne_true h

end Text

open Text

/-! ## Names -/

namespace Lexer

variable {taken between old text : Text}

/-- A name that was not begun is not begun. -/
theorem nameTail_eq_nil_iff {c : Char} {rest : Text} :
    nameTail (c :: rest) = ⟨[], c :: rest, true⟩ ↔
      isIdentContinue c = false ∧ ¬ (c = '\\' ∧ rest.head?.any isIdentStart = true) := by
  rw [nameTail]
  -- A name goes on with a letter, or with a backslash that has one behind it.
  split
  · rename_i hident
    rw [hident]
    refine ⟨fun h => ?_, fun h => absurd h.1.symm Bool.false_ne_true⟩
    rcases Cut.exists_of_cons_eq h with ⟨_, hnil, _⟩
    exact absurd hnil (by simp only [reduceCtorEq, not_false_eq_true])
  rename_i hident
  split
  · rename_i hbackslash
    refine ⟨fun h => ?_, fun h => absurd hbackslash h.2⟩
    rcases Cut.exists_of_cons_eq h with ⟨_, hnil, _⟩
    exact absurd hnil (by simp only [reduceCtorEq, not_false_eq_true])
  · rename_i hbackslash
    exact ⟨fun _ => ⟨Bool.not_eq_true _ ▸ hident, hbackslash⟩, fun _ => rfl⟩

/-- A text does not continue a name that ends in front of `between`. -/
structure EndsName (between text : Text) : Prop where
  near : between = [] → text.head?.all (fun c => !isIdentContinue c && c != '\\') = true
  far : between = ['\\'] → text.head?.any isIdentStart = false

/-- A text that follows safely continues no name. -/
theorem endsName_of_follows (h : Follows between text) : EndsName between text := by
  refine ⟨fun hnil => ?_, ?_⟩
  -- Right behind the name the first character must be calm.
  · have hcalm := h.calm hnil
    rcases text with _ | ⟨c, rest⟩
    · rfl
    · rw [List.head?_cons, Option.all_some, Bool.and_eq_true, Bool.not_eq_true', bne_iff_ne]
      exact ⟨isIdentContinue_of_isCalm hcalm, ne_of_isCalm hcalm rfl⟩
  -- With a backslash in between it must be quiet behind it.
  · rintro rfl
    rcases text with _ | ⟨c, rest⟩
    · rfl
    · have hquiet := h.head_quiet
      rw [isQuiet, beq_self_eq_true, Bool.true_and, Bool.and_eq_true, Bool.not_eq_true'] at hquiet
      exact hquiet.2

theorem nameTail_retail (hends : EndsName between text)
    (h : nameTail (taken ++ (between ++ old)) = ⟨taken, between ++ old, true⟩) :
    nameTail (taken ++ (between ++ text)) = ⟨taken, between ++ text, true⟩ := by
  -- By induction on the name. At its end the scanner may look two characters ahead, and one of them
  -- may be between.
  induction taken with
  | nil =>
    rw [List.nil_append] at h ⊢
    rcases between with _ | ⟨b, between⟩
    · have hnear := hends.near rfl
      rcases text with _ | ⟨c, rest⟩
      · rfl
      · rw [List.head?_cons, Option.all_some, Bool.and_eq_true, Bool.not_eq_true',
          bne_iff_ne] at hnear
        exact nameTail_eq_nil_iff.mpr ⟨hnear.1, fun h => hnear.2 h.1⟩
    · rw [List.cons_append] at h ⊢
      rw [nameTail_eq_nil_iff] at h ⊢
      refine ⟨h.1, fun hstart => h.2 ⟨hstart.1, ?_⟩⟩
      rcases between with _ | ⟨d, between⟩
      · have hfar := hends.far (by rw [hstart.1])
        exact absurd (hfar.symm.trans hstart.2) Bool.false_ne_true
      · exact hstart.2
  | cons c taken ih =>
    rw [List.cons_append, nameTail] at h ⊢
    split at h
    · rename_i hident
      rw [if_pos hident]
      rw [Cut.cons_eq_iff] at h ⊢
      exact ih h
    rename_i hident
    rw [if_neg hident]
    split at h
    · rename_i hbackslash
      rw [Cut.cons_eq_iff] at h
      -- The letter behind the backslash is part of the name.
      have hhead : (taken ++ (between ++ text)).head?.any isIdentStart = true := by
        rcases taken with _ | ⟨d, taken⟩
        · rw [List.nil_append] at h hbackslash
          rcases hrest : between ++ old with _ | ⟨d, rest⟩
          · rw [hrest] at hbackslash
            exact absurd hbackslash.2 Bool.false_ne_true
          · rw [hrest] at h hbackslash
            have hstart : isIdentStart d = true := hbackslash.2
            have hnone := (nameTail_eq_nil_iff.mp h).1
            rw [isIdentContinue, hstart] at hnone
            exact absurd hnone (by simp only [Bool.true_or, Bool.true_eq_false, not_false_eq_true])
        · exact hbackslash.2
      rw [if_pos ⟨hbackslash.1, hhead⟩, Cut.cons_eq_iff]
      exact ih h
    · injection h with hnil _ _
      exact absurd hnil (by simp only [reduceCtorEq, not_false_eq_true])

end Lexer

/-! ## Numbers -/

namespace Number

variable {taken between old text : Text}

/-- The letters behind a leading zero that say how the digits are to be read. -/
def isBaseLetter (c : Char) : Bool := ['x', 'X', 'b', 'B', 'o', 'O'].contains c

/-- The characters that continue no number that ends right in front of them. -/
def isStop (c : Char) : Bool := !isHexDigit c && !isBaseLetter c && !isSign c && c != '.'

/-- A text does not continue a number that ends in front of `between`. -/
structure Ends (between text : Text) : Prop where
  near : between = [] → text.head?.all isStop = true
  far : text.head?.all (fun c => !c.isDigit && !isSign c) = true

theorem isStop_iff {c : Char} : isStop c = true ↔
    isHexDigit c = false ∧ isBaseLetter c = false ∧ isSign c = false ∧ c ≠ '.' := by
  simp only [isStop, Bool.and_eq_true, Bool.not_eq_true', bne_iff_ne, and_assoc]

theorem isDigit_of_stop (c : Char) (h : isStop c = true) : isDigit c = false := by
  have hhex := (isStop_iff.mp h).1
  rw [isHexDigit, Bool.or_eq_false_iff, Bool.or_eq_false_iff] at hhex
  exact hhex.1.1

theorem isHexDigit_of_stop (c : Char) (h : isStop c = true) : isHexDigit c = false :=
  (isStop_iff.mp h).1

theorem isBaseLetter_of_stop (c : Char) (h : isStop c = true) : isBaseLetter c = false :=
  (isStop_iff.mp h).2.1

theorem isSign_of_stop (c : Char) (h : isStop c = true) : isSign c = false :=
  (isStop_iff.mp h).2.2.1

theorem isExponentLetter_of_stop (c : Char) (h : isStop c = true) : isExponentLetter c = false := by
  have hhex := isHexDigit_of_stop c h
  rw [isExponentLetter, Bool.or_eq_false_iff, beq_eq_false_iff_ne, beq_eq_false_iff_ne]
  refine ⟨?_, ?_⟩
  all_goals
    rintro rfl
    exact absurd hhex (by decide)

/-- The letters among the digits of a hexadecimal number are letters. -/
theorem isAlpha_of_hex {c : Char} (h : ('a' ≤ c ∧ c ≤ 'f') ∨ ('A' ≤ c ∧ c ≤ 'F')) :
    c.isAlpha = true := by
  change (decide ('A'.val ≤ c.val ∧ c.val ≤ 'Z'.val) ||
    decide ('a'.val ≤ c.val) && decide (c.val ≤ 'z'.val)) = true
  simp only [Char.le_def, UInt32.le_iff_toNat_le, decide_eq_true_eq, Bool.or_eq_true,
    Bool.and_eq_true] at h ⊢
  have hbounds : 'a'.val.toNat = 97 ∧ 'f'.val.toNat = 102 ∧ 'z'.val.toNat = 122 ∧
      'A'.val.toNat = 65 ∧ 'F'.val.toNat = 70 ∧ 'Z'.val.toNat = 90 := ⟨rfl, rfl, rfl, rfl, rfl, rfl⟩
  omega

/-- What continues no token continues no number. -/
theorem isStop_of_calm {c : Char} (h : isCalm c = true) : isStop c = true := by
  have hne {d : Char} (hd : isCalm d = false) : (c == d) = false :=
    beq_eq_false_iff_ne.mpr (ne_of_isCalm h hd)
  have hdigit : isDigit c = false := by
    rw [isDigit, isDigit_of_isCalm h, hne rfl]
    rfl
  -- The four tests ask for letters, digits, signs or a point, and none of these is calm.
  refine isStop_iff.mpr ⟨?_, ?_, ?_, ne_of_isCalm h rfl⟩
  · rw [isHexDigit, hdigit, Bool.false_or]
    by_cases hhex : ('a' ≤ c ∧ c ≤ 'f') ∨ ('A' ≤ c ∧ c ≤ 'F')
    · have hident := isIdentStart_of_isCalm h
      rw [isIdentStart, isAlpha_of_hex hhex] at hident
      exact absurd hident (by simp only [Bool.true_or, Bool.true_eq_false, not_false_eq_true])
    · rw [← Bool.not_eq_true, Bool.or_eq_true, Bool.and_eq_true, Bool.and_eq_true,
        decide_eq_true_eq, decide_eq_true_eq, decide_eq_true_eq, decide_eq_true_eq]
      exact hhex
  · simp only [isBaseLetter, List.contains_cons, List.contains_nil,
      hne (show isCalm 'x' = false from rfl), hne (show isCalm 'X' = false from rfl),
      hne (show isCalm 'b' = false from rfl), hne (show isCalm 'B' = false from rfl),
      hne (show isCalm 'o' = false from rfl), hne (show isCalm 'O' = false from rfl), Bool.or_self]
  · rw [isSign, hne rfl, hne rfl]
    rfl

end Number

/-- A text that follows safely continues no number. -/
theorem Text.Follows.endsNumber {between text : Text} (h : Follows between text) :
    Number.Ends between text := by
  refine ⟨fun hnil => ?_, ?_⟩
  · have hcalm := h.calm hnil
    rcases text with _ | ⟨c, rest⟩
    · rfl
    · exact Number.isStop_of_calm hcalm
  · rcases text with _ | ⟨c, rest⟩
    · rfl
    rw [List.head?_cons, Option.all_some, Bool.and_eq_true, Bool.not_eq_true', Bool.not_eq_true']
    -- With characters in between, the last of them says what it must not be continued by.
    rcases List.eq_nil_or_concat between with rfl | ⟨front, b, rfl⟩
    · have hcalm := h.head_calm
      exact ⟨isDigit_of_isCalm hcalm,
        Number.isSign_of_stop c (Number.isStop_of_calm hcalm)⟩
    · have hquiet : isQuiet b c = true := h.quiet b (by
        rw [List.concat_eq_append, List.getLast?_concat])
      refine ⟨?_, ?_⟩
      · rw [isQuiet, Bool.and_eq_true, Bool.and_eq_true, Bool.not_eq_true'] at hquiet
        exact hquiet.1.1
      · rw [Number.isSign,
          beq_eq_false_iff_ne.mpr (ne_of_isQuiet hquiet (by simp only [isQuiet]; rfl)),
          beq_eq_false_iff_ne.mpr (ne_of_isQuiet hquiet (by simp only [isQuiet]; rfl))]
        rfl

namespace Number

variable {taken between old text : Text}

namespace Ends

theorem append (h : Ends between text) (front : Text) : Ends (front ++ between) text :=
  ⟨fun hnil => h.near (List.append_eq_nil_iff.1 hnil).2, h.far⟩

/-- What does not go on with the old text does not go on with the new one. -/
theorem any_head (h : Ends between text) {p : Char → Bool}
    (hp : ∀ c, isStop c = true → p c = false) (hold : (between ++ old).head?.any p = false) :
    (between ++ text).head?.any p = false := by
  rcases between with _ | ⟨b, between⟩
  · have hnear := h.near rfl
    rcases text with _ | ⟨c, rest⟩
    · rfl
    · exact hp c hnear
  · exact hold

end Ends

theorem digits_retail (hends : Ends between text)
    (h : digits (taken ++ (between ++ old)) = ⟨taken, between ++ old, true⟩) :
    digits (taken ++ (between ++ text)) = ⟨taken, between ++ text, true⟩ :=
  Cut.run_retail h (hends.any_head isDigit_of_stop (Cut.run_eq_iff.mp h).2)

/-- The first character of what is left, where nothing was taken by a scan for an optional
    character. -/
theorem head_of_follows (hends : Ends between text) {p : Char → Bool}
    (hp : ∀ c, isStop c = true → p c = false) {c : Char} {rest : Text}
    (hold : ∀ d more, between ++ old = d :: more → p d = false)
    (htext : between ++ text = c :: rest) : p c = false := by
  have hnone : (between ++ old).head?.any p = false := by
    rcases hrest : between ++ old with _ | ⟨d, more⟩
    · rfl
    · exact hold d more hrest
  have hany := hends.any_head hp hnone
  rw [htext] at hany
  exact hany

theorem signedDigits_retail (hends : Ends between text)
    (h : signedDigits (taken ++ (between ++ old)) = ⟨taken, between ++ old, true⟩) :
    signedDigits (taken ++ (between ++ text)) = ⟨taken, between ++ text, true⟩ := by
  -- Where nothing was taken, no sign was ahead, and none is now.
  rcases taken with _ | ⟨c, taken⟩
  · have hsign : ∀ d more, between ++ old = d :: more → isSign d = false := by
      intro d more hrest
      rw [List.nil_append, hrest, signedDigits] at h
      split at h
      · rcases Cut.exists_of_cons_eq h with ⟨_, hnil, _⟩
        exact absurd hnil (by simp only [reduceCtorEq, not_false_eq_true])
      · exact Bool.not_eq_true _ ▸ ‹_›
    have hdigits : digits ([] ++ (between ++ old)) = ⟨[], between ++ old, true⟩ := by
      rw [List.nil_append] at h ⊢
      rcases hrest : between ++ old with _ | ⟨d, more⟩
      · rfl
      · rw [hrest, signedDigits, hsign d more hrest, if_neg Bool.false_ne_true] at h
        exact h
    have hdigits' := digits_retail hends hdigits
    rw [List.nil_append] at hdigits' ⊢
    rcases hrest : between ++ text with _ | ⟨d, more⟩
    · rfl
    · rw [signedDigits, head_of_follows hends isSign_of_stop hsign hrest,
        if_neg Bool.false_ne_true, ← hrest]
      exact hdigits'
  · rw [List.cons_append, signedDigits] at h ⊢
    split at h
    · rename_i hsign
      rw [if_pos hsign]
      rw [Cut.cons_eq_iff] at h ⊢
      exact digits_retail hends h
    · rename_i hsign
      rw [if_neg hsign]
      rw [← List.cons_append] at h ⊢
      exact digits_retail hends h

theorem exponent_retail (hends : Ends between text)
    (h : exponent (taken ++ (between ++ old)) = ⟨taken, between ++ old, true⟩) :
    exponent (taken ++ (between ++ text)) = ⟨taken, between ++ text, true⟩ := by
  -- Where nothing was taken, no letter was ahead, and none is now.
  rcases taken with _ | ⟨c, taken⟩
  · have hletter : ∀ d more, between ++ old = d :: more → isExponentLetter d = false := by
      intro d more hrest
      rw [List.nil_append, hrest, exponent] at h
      split at h
      · rcases Cut.exists_of_cons_eq h with ⟨_, hnil, _⟩
        exact absurd hnil (by simp only [reduceCtorEq, not_false_eq_true])
      · exact Bool.not_eq_true _ ▸ ‹_›
    rw [List.nil_append]
    rcases hrest : between ++ text with _ | ⟨d, more⟩
    · rfl
    · rw [exponent, head_of_follows hends isExponentLetter_of_stop hletter hrest,
        if_neg Bool.false_ne_true]
  · rw [List.cons_append, exponent] at h ⊢
    split at h
    · rename_i hletter
      rw [if_pos hletter]
      rw [Cut.cons_eq_iff] at h ⊢
      exact signedDigits_retail hends h
    · injection h with hnil _ _
      exact absurd hnil (by simp only [reduceCtorEq, not_false_eq_true])

/-- Two scans one after the other take two parts of what both take. -/
theorem andThen_cases {cut : Cut} {scan : Text → Cut} {rest : Text}
    (hsplits : ∀ text, (scan text).Splits text)
    (h : cut.andThen scan = ⟨taken, rest, true⟩) :
    ∃ front back, taken = front ++ back ∧ cut.taken = front ∧ cut.rest = back ++ rest ∧
      scan (back ++ rest) = ⟨back, rest, true⟩ := by
  have hscan := hsplits cut.rest
  rw [Cut.Splits] at hscan
  injection h with htaken hrest hclosed
  refine ⟨cut.taken, (scan cut.rest).taken, htaken.symm, rfl, by rw [← hrest, hscan], ?_⟩
  rw [← hrest, hscan]
  rcases hcut : scan cut.rest with ⟨taken', rest', closed'⟩
  rw [hcut] at hclosed
  rw [show closed' = true from hclosed]

theorem scanFraction_retail (hends : Ends between text) (hne : taken ≠ [])
    (h : scanFraction (taken ++ (between ++ old)) = ⟨taken, between ++ old, true⟩) :
    scanFraction (taken ++ (between ++ text)) = ⟨taken, between ++ text, true⟩ := by
  rcases taken with _ | ⟨c, taken⟩
  · exact absurd rfl hne
  rw [List.cons_append, scanFraction, Cut.cons_eq_iff] at h ⊢
  rcases andThen_cases splits_exponent h with ⟨front, back, rfl, hfront, hback, hexponent⟩
  -- The digits end where the exponent begins, which counts as what is between.
  have hdigits : digits (front ++ (back ++ between ++ old)) =
      ⟨front, back ++ between ++ old, true⟩ := by
    have hcut : digits (front ++ back ++ (between ++ old)) =
        ⟨(digits (front ++ back ++ (between ++ old))).taken,
          (digits (front ++ back ++ (between ++ old))).rest, true⟩ := rfl
    rw [hfront, hback] at hcut
    simpa only [List.append_assoc] using hcut
  have hdigits' := digits_retail (hends.append back) hdigits
  have hexponent' := exponent_retail hends hexponent
  simp only [List.append_assoc] at hdigits' ⊢
  rw [Cut.andThen, hdigits']
  dsimp only
  rw [hexponent']
  rfl

/-- A number whose integer part is all there is stays so: neither a point with a digit behind it
    nor an exponent comes next. -/
theorem afterInteger_eq_nil {c d : Char} {rest : Text} :
    afterInteger (c :: d :: rest) = (false, ⟨[], c :: d :: rest, true⟩) ↔
      ¬ (c = '.' ∧ d.isDigit = true) ∧
        ¬ (isExponentLetter c = true ∧ (d.isDigit = true ∨ isSign d = true)) := by
  rw [afterInteger]
  -- Each of the two tests takes a character when it succeeds.
  split
  · rename_i hpoint
    exact ⟨fun h => absurd h (by simp only [Prod.mk.injEq, Bool.true_eq_false, false_and,
      not_false_eq_true]), fun h => absurd hpoint h.1⟩
  rename_i hpoint
  split
  · rename_i hletter
    exact ⟨fun h => absurd h (by simp only [Prod.mk.injEq, Bool.true_eq_false, false_and,
      not_false_eq_true]), fun h => absurd hletter h.2⟩
  · rename_i hletter
    exact ⟨fun _ => ⟨hpoint, hletter⟩, fun _ => rfl⟩

/-- Nothing is taken behind an integer where neither a fraction nor an exponent begins. -/
theorem afterInteger_of_not {rest : Text} (hrest : ∀ c d more, rest = c :: d :: more →
    ¬ (c = '.' ∧ d.isDigit = true) ∧
      ¬ (isExponentLetter c = true ∧ (d.isDigit = true ∨ isSign d = true))) :
    afterInteger rest = (false, ⟨[], rest, true⟩) := by
  rcases rest with _ | ⟨c, _ | ⟨d, more⟩⟩
  · rfl
  · rfl
  · exact afterInteger_eq_nil.mpr (hrest c d more rfl)

/-- Where nothing is taken behind it, an integer stays one. -/
theorem float_of_afterInteger {rest : Text} {float : Bool}
    (h : afterInteger rest = (float, ⟨[], rest, true⟩)) : float = false := by
  rcases rest with _ | ⟨c, _ | ⟨d, more⟩⟩
  · exact (congrArg Prod.fst h).symm
  · exact (congrArg Prod.fst h).symm
  · rw [afterInteger] at h
    split at h
    · exact absurd (congrArg (fun cut => cut.2.taken) h) (List.cons_ne_nil _ _)
    split at h
    · rename_i hletter
      rw [exponent, if_pos hletter.1] at h
      exact absurd (congrArg (fun cut => cut.2.taken) h) (List.cons_ne_nil _ _)
    · exact (congrArg Prod.fst h).symm

/-- A point or a letter alone is not taken: the digit or the sign behind it is taken with it. -/
theorem afterInteger_ne_singleton {c : Char} {rest : Text} {float : Bool} :
    afterInteger (c :: rest) ≠ (float, ⟨[c], rest, true⟩) := by
  intro h
  rcases rest with _ | ⟨d, more⟩
  · exact absurd (congrArg (fun cut => cut.2.taken) h) (List.cons_ne_nil _ _).symm
  rw [afterInteger] at h
  have htaken := congrArg (fun cut => cut.2.taken) h
  split at htaken
  · rename_i hpoint
    have hdigit : isDigit d = true := by rw [isDigit, hpoint.2, Bool.true_or]
    simp only [scanFraction, digits, Cut.run, Cut.cons, Cut.andThen, Cut.prepend,
      List.takeWhile_cons, hdigit, if_true, List.cons_append, List.cons.injEq, reduceCtorEq,
      and_false] at htaken
  split at htaken
  · rename_i hletter
    rw [exponent, if_pos hletter.1, signedDigits] at htaken
    split at htaken
    · simp only [Cut.cons, List.cons.injEq, reduceCtorEq, and_false] at htaken
    · rename_i hsign
      have hdigit : isDigit d = true := by
        rw [isDigit, hletter.2.resolve_right hsign, Bool.true_or]
      simp only [digits, Cut.run, Cut.cons, List.takeWhile_cons, hdigit, if_true,
        List.cons.injEq, reduceCtorEq, and_false] at htaken
  · exact absurd htaken (List.cons_ne_nil _ _).symm

theorem afterInteger_retail (hends : Ends between text) {float : Bool}
    (h : afterInteger (taken ++ (between ++ old)) = (float, ⟨taken, between ++ old, true⟩)) :
    afterInteger (taken ++ (between ++ text)) = (float, ⟨taken, between ++ text, true⟩) := by
  rcases taken with _ | ⟨c, _ | ⟨d, taken⟩⟩
  · -- Nothing was taken. How much of the new text the two tests see depends on what is between.
    rw [List.nil_append] at h ⊢
    have hfloat := float_of_afterInteger h
    subst hfloat
    refine afterInteger_of_not fun c d more hrest => ?_
    rcases between with _ | ⟨b, _ | ⟨b', between⟩⟩
    · rw [List.nil_append] at hrest
      rw [hrest] at hends
      have hstop : isStop c = true := hends.near rfl
      exact ⟨fun hpoint => (isStop_iff.mp hstop).2.2.2 hpoint.1, fun hletter =>
        Bool.false_ne_true ((isExponentLetter_of_stop c hstop).symm.trans hletter.1)⟩
    · rw [List.singleton_append, List.cons.injEq] at hrest
      rw [hrest.2] at hends
      have hfar := hends.far
      rw [List.head?_cons, Option.all_some, Bool.and_eq_true, Bool.not_eq_true',
        Bool.not_eq_true'] at hfar
      rw [hfar.1, hfar.2]
      simp only [Bool.false_eq_true, and_false, or_self, not_false_eq_true, and_self]
    · rw [List.cons_append, List.cons_append, List.cons.injEq, List.cons.injEq] at hrest
      rw [List.cons_append, List.cons_append, afterInteger_eq_nil] at h
      rw [← hrest.1, ← hrest.2.1]
      exact h
  · exact absurd h afterInteger_ne_singleton
  · -- What was taken has two characters at least, and they decide.
    rw [List.cons_append, List.cons_append, afterInteger] at h ⊢
    rw [Prod.ext_iff] at h
    split at h
    · rename_i hpoint
      rw [if_pos hpoint]
      have hfraction : scanFraction (c :: d :: taken ++ (between ++ old)) =
        ⟨c :: d :: taken, between ++ old, true⟩ := h.2
      exact Prod.ext h.1 (scanFraction_retail hends (List.cons_ne_nil _ _) hfraction)
    rename_i hpoint
    rw [if_neg hpoint]
    split at h
    · rename_i hletter
      rw [if_pos hletter]
      have hexponent : exponent (c :: d :: taken ++ (between ++ old)) =
        ⟨c :: d :: taken, between ++ old, true⟩ := h.2
      exact Prod.ext h.1 (exponent_retail hends hexponent)
    · exact absurd (congrArg Cut.taken h.2) (List.cons_ne_nil _ _).symm

/-- Without a base the integer part is digits. -/
theorem integerTail_digits {first c : Char} {rest : Text}
    (h : first = '0' → isBaseLetter c = false) :
    integerTail first (c :: rest) = (true, digits (c :: rest)) := by
  simp only [isBaseLetter, List.contains_cons, List.contains_nil, Bool.or_false,
    Bool.or_eq_false_iff, beq_eq_false_iff_ne] at h
  -- Neither test for a base succeeds.
  rw [integerTail, if_neg, if_neg]
  · rintro ⟨hzero, hc⟩
    have hne := h hzero
    rcases hc with rfl | rfl | rfl | rfl
    · exact hne.2.2.1 rfl
    · exact hne.2.2.2.1 rfl
    · exact hne.2.2.2.2.1 rfl
    · exact hne.2.2.2.2.2 rfl
  · rintro ⟨hzero, hc⟩
    have hne := h hzero
    rcases hc with rfl | rfl
    · exact hne.1 rfl
    · exact hne.2.1 rfl

/-- A base is always taken. -/
theorem not_base_of_taken {first c : Char} {rest : Text}
    (h : (integerTail first (c :: rest)).2.taken = []) (hzero : first = '0') :
    isBaseLetter c = false := by
  rw [integerTail] at h
  -- A letter that stands for a base would have been taken.
  split at h
  · exact absurd h (List.cons_ne_nil _ _)
  rename_i hhex
  split at h
  · exact absurd h (List.cons_ne_nil _ _)
  rename_i hbase
  simp only [hzero, true_and, not_or] at hhex hbase
  simp only [isBaseLetter, List.contains_cons, List.contains_nil, Bool.or_false,
    Bool.or_eq_false_iff, beq_eq_false_iff_ne]
  exact ⟨hhex.1, hhex.2, hbase.1, hbase.2.1, hbase.2.2.1, hbase.2.2.2⟩

theorem integerTail_retail (hends : Ends between text) {first : Char} {more : Bool}
    (h : integerTail first (taken ++ (between ++ old)) = (more, ⟨taken, between ++ old, true⟩)) :
    integerTail first (taken ++ (between ++ text)) = (more, ⟨taken, between ++ text, true⟩) := by
  have hdigits {rest : Text} (hrest : ∀ c tail, rest = c :: tail →
      first = '0' → isBaseLetter c = false) : integerTail first rest = (true, digits rest) := by
    rcases rest with _ | ⟨c, tail⟩
    · rfl
    · exact integerTail_digits (hrest c tail rfl)
  -- Where nothing was taken no base is ahead, before and after.
  rcases taken with _ | ⟨c, taken⟩
  · rw [List.nil_append] at h ⊢
    have hold : ∀ c tail, between ++ old = c :: tail → first = '0' → isBaseLetter c = false := by
      intro c tail hrest
      rw [hrest] at h
      exact not_base_of_taken (congrArg (fun cut => cut.2.taken) h)
    have htext : ∀ c tail, between ++ text = c :: tail → first = '0' → isBaseLetter c = false := by
      intro c tail hrest hzero
      exact head_of_follows hends isBaseLetter_of_stop
        (fun d more hmore => hold d more hmore hzero) hrest
    rw [hdigits hold, Prod.mk.injEq] at h
    have hnone : digits ([] ++ (between ++ text)) = _ := digits_retail hends h.2
    rw [List.nil_append] at hnone
    rw [hdigits htext, hnone, h.1]
  · rw [List.cons_append, integerTail] at h ⊢
    split at h
    · rename_i hhex
      rw [if_pos hhex]
      rw [Prod.mk.injEq, Cut.cons_eq_iff] at h ⊢
      exact ⟨h.1, Cut.run_retail h.2
        (hends.any_head isHexDigit_of_stop (Cut.run_eq_iff.mp h.2).2)⟩
    rename_i hhex
    rw [if_neg hhex]
    split at h
    · rename_i hbase
      rw [if_pos hbase]
      rw [Prod.mk.injEq, Cut.cons_eq_iff] at h ⊢
      exact ⟨h.1, digits_retail hends h.2⟩
    · rename_i hbase
      rw [if_neg hbase]
      rw [Prod.mk.injEq, ← List.cons_append] at h ⊢
      exact ⟨h.1, digits_retail hends h.2⟩

/-- A number in front of another text. -/
theorem scan_retail (hends : Ends between text) {float : Bool} (hne : taken ≠ [])
    (h : scan (taken ++ (between ++ old)) = (float, ⟨taken, between ++ old, true⟩)) :
    scan (taken ++ (between ++ text)) = (float, ⟨taken, between ++ text, true⟩) := by
  rcases taken with _ | ⟨first, taken⟩
  · exact absurd rfl hne
  rw [List.cons_append, scan] at h ⊢
  have hsplits := splits_integerTail first (taken ++ (between ++ old))
  rw [Cut.Splits] at hsplits
  -- No number is left open.
  have hclosed : (integerTail first (taken ++ (between ++ old))).2.closed = true := by
    unfold integerTail
    split
    · rfl
    split
    · rfl
    split <;> rfl
  rcases hinteger : integerTail first (taken ++ (between ++ old)) with ⟨more, front, rest, closed⟩
  rw [hinteger] at h hsplits hclosed
  dsimp only at h hsplits hclosed
  subst hclosed
  -- The integer part may be followed by more, and then ends where that begins.
  by_cases hmore : more = true
  · rw [if_pos hmore, Prod.mk.injEq, Cut.cons_eq_iff] at h
    have hafter := splits_afterInteger rest
    rw [Cut.Splits] at hafter
    rcases hcut : afterInteger rest with ⟨float', back, rest', closed'⟩
    rw [hcut] at h hafter
    rcases h with ⟨hfloat, hprepend⟩
    injection hprepend with htaken hrest hclosed'
    dsimp only at hfloat htaken hrest hclosed' hafter
    subst hfloat hrest hclosed'
    rw [← hafter] at hcut hinteger
    rw [← htaken, List.append_assoc] at hinteger
    have hinteger' : integerTail first (front ++ (back ++ between ++ old)) =
        (more, ⟨front, back ++ between ++ old, true⟩) := by
      rw [List.append_assoc]
      exact hinteger
    have hfront := integerTail_retail (hends.append back) hinteger'
    have hback := afterInteger_retail hends hcut
    rw [List.append_assoc] at hfront
    rw [← htaken, List.append_assoc, hfront]
    dsimp only
    rw [if_pos hmore, hback]
    rfl
  · rw [if_neg hmore, Prod.mk.injEq, Cut.cons_eq_iff] at h
    rcases h with ⟨hfloat, hcut⟩
    rw [hcut] at hinteger
    rw [integerTail_retail hends hinteger]
    dsimp only
    rw [if_neg hmore, hfloat]
    rfl

end Number

/-! ## Quoted strings -/

namespace Quoted

/-- What is open is not closed by nothing. -/
theorem taken_ne_nil {first : Open} {stack : List Open} {text : Text}
    (h : (close (first :: stack) text).closed = true) : (close (first :: stack) text).taken ≠ [] := by
  generalize hstack : first :: stack = outer at h
  fun_cases close outer text with
  | case1 => exact absurd hstack (List.cons_ne_nil _ _)
  | case2 => exact absurd h Bool.false_ne_true
  | case3 => exact absurd h Bool.false_ne_true
  | case4 | case5 | case6 | case7 | case8 | case9 | case10 | case11 => exact List.cons_ne_nil _ _

/-- A character of a string that is no backslash. -/
theorem close_quote {mark c : Char} {outer : List Open} {text : Text} (hc : c ≠ '\\') :
    close (.quote mark :: outer) (c :: text) =
      if c = '{' ∧ mark = '"' ∧ text.head? = some '$' then
        (close (.braces 1 :: .quote mark :: outer) text).cons c
      else if c = mark then (close outer text).cons c
      else (close (.quote mark :: outer) text).cons c := by
  rw [close]
  exact hc

theorem head?_inner {inner : Text} (hne : inner ≠ []) (rest other : Text) :
    (inner ++ rest).head? = (inner ++ other).head? := by
  rcases inner with _ | ⟨c, inner⟩
  · exact absurd rfl hne
  · rfl

/-- A string ends at its quote, whatever follows. -/
theorem close_retail {stack : List Open} {taken rest : Text} (other : Text)
    (h : close stack (taken ++ rest) = ⟨taken, rest, true⟩) :
    close stack (taken ++ other) = ⟨taken, other, true⟩ := by
  generalize htext : taken ++ rest = text at h
  -- By induction on the string. What closes it is among the characters taken, so no test sees the
  -- rest.
  fun_induction close stack text generalizing taken with
  | case1 =>
    injection h with htaken _ _
    rw [← htaken, List.nil_append, close]
  | case2 => exact absurd (congrArg Cut.closed h) Bool.false_ne_true
  | case3 => exact absurd (congrArg Cut.closed h) Bool.false_ne_true
  | case4 mark outer c text ih =>
    rcases Cut.exists_of_cons_eq h with ⟨_, rfl, hinner⟩
    rcases Cut.exists_of_cons_eq hinner with ⟨inner, rfl, hclose⟩
    rw [List.cons_append, List.cons_append, List.cons.injEq, List.cons.injEq] at htext
    rw [List.cons_append, List.cons_append, close, ih htext.2.2 hclose]
    rfl
  | case5 mark outer c text hbackslash hbrace ih =>
    rcases Cut.exists_of_cons_eq h with ⟨inner, rfl, hclose⟩
    rw [List.cons_append, List.cons.injEq] at htext
    have hne := taken_ne_nil (congrArg Cut.closed hclose)
    rw [hclose] at hne
    have hhead : (inner ++ other).head? = some '$' := by
      rw [← head?_inner hne rest, htext.2]
      exact hbrace.2.2
    rw [List.cons_append, close_quote hbackslash, if_pos ⟨hbrace.1, hbrace.2.1, hhead⟩,
      ih htext.2 hclose]
    rfl
  | case6 outer c text hbackslash hbrace ih =>
    rcases Cut.exists_of_cons_eq h with ⟨inner, rfl, hclose⟩
    rw [List.cons_append, List.cons.injEq] at htext
    have hquote : ¬ (c = '{' ∧ c = '"' ∧ (inner ++ other).head? = some '$') := by
      rintro ⟨rfl, hmark, _⟩
      exact absurd hmark (by decide)
    rw [List.cons_append, close_quote hbackslash, if_neg hquote, if_pos rfl, ih htext.2 hclose]
    rfl
  | case7 mark outer c text hbackslash hbrace hmark ih =>
    rcases Cut.exists_of_cons_eq h with ⟨inner, rfl, hclose⟩
    rw [List.cons_append, List.cons.injEq] at htext
    have hne := taken_ne_nil (congrArg Cut.closed hclose)
    rw [hclose] at hne
    rw [← htext.2, head?_inner hne rest other] at hbrace
    rw [List.cons_append, close_quote hbackslash, if_neg hbrace, if_neg hmark, ih htext.2 hclose]
    rfl
  | case8 depth outer text ih =>
    rcases Cut.exists_of_cons_eq h with ⟨inner, rfl, hclose⟩
    rw [List.cons_append, List.cons.injEq] at htext
    rw [List.cons_append, close, if_pos rfl, ih htext.2 hclose]
    rfl
  | case9 depth outer text hopen ih =>
    rcases Cut.exists_of_cons_eq h with ⟨inner, rfl, hclose⟩
    rw [List.cons_append, List.cons.injEq] at htext
    rw [List.cons_append, close, if_neg hopen, if_pos rfl, ih htext.2 hclose]
    rfl
  | case10 depth outer c text hopen hclosing hquote ih =>
    rcases Cut.exists_of_cons_eq h with ⟨inner, rfl, hclose⟩
    rw [List.cons_append, List.cons.injEq] at htext
    rw [List.cons_append, close, if_neg hopen, if_neg hclosing, if_pos hquote, ih htext.2 hclose]
    rfl
  | case11 depth outer c text hopen hclosing hquote ih =>
    rcases Cut.exists_of_cons_eq h with ⟨inner, rfl, hclose⟩
    rw [List.cons_append, List.cons.injEq] at htext
    rw [List.cons_append, close, if_neg hopen, if_neg hclosing, if_neg hquote, ih htext.2 hclose]
    rfl

/-- A quoted string in front of another text. -/
theorem scan_retail {taken rest : Text} (other : Text) (hne : taken ≠ [])
    (h : scan (taken ++ rest) = ⟨taken, rest, true⟩) :
    scan (taken ++ other) = ⟨taken, other, true⟩ := by
  rcases taken with _ | ⟨mark, taken⟩
  · exact absurd rfl hne
  rw [List.cons_append, scan, Cut.cons_eq_iff] at h ⊢
  exact close_retail other h

end Quoted

end PhpAssist

import PhpAssist.Proofs.Lexes
import PhpAssist.Proofs.Tiling

/-!
# Tokens by themselves

A token is read with a look at what comes behind it: the second character of an operator, the sign
of an exponent, the lines of a heredoc up to its label. Cut out of its text, it has nothing behind
it. It is read as the same token all the same, because the end of a text continues nothing. What
stops at the end of the text anyway is a token whose end is missing, and for this one there is
nothing to cut off.

Nor does a token begin to look like trivia once it stands alone. A slash that no comment began with
in its text begins none in front of the end either.

## Theorems

* `Lexer.rest_of_open`: A token whose end is missing takes the whole rest of the text.
* `Lexer.scan_taken`: What is taken as a token is taken again where nothing is behind it.
* `Lexing.exists_scan_of_mem_readFrom`: How a token was read.
* `Lexing.token_by_itself`: Every token of every text is the one token of its own text.
-/

namespace PhpAssist

open Text

namespace Quoted

/-- A string that is not closed runs to the end. -/
theorem rest_close_of_open {stack : List Open} {text : Text}
    (h : (close stack text).closed = false) : (close stack text).rest = [] := by
  fun_induction close stack text with
  | case1 => exact absurd h.symm Bool.false_ne_true
  | case2 | case3 => rfl
  | case4 _ _ _ _ ih => exact ih h
  | case5 _ _ _ _ _ _ ih => exact ih h
  | case6 _ _ _ _ _ ih => exact ih h
  | case7 _ _ _ _ _ _ _ ih => exact ih h
  | case8 _ _ _ ih => exact ih h
  | case9 _ _ _ _ ih => exact ih h
  | case10 _ _ _ _ _ _ _ ih => exact ih h
  | case11 _ _ _ _ _ _ _ ih => exact ih h

theorem rest_scan_of_open {text : Text} (h : (scan text).closed = false) :
    (scan text).rest = [] := by
  cases text with
  | nil => rfl
  | cons mark rest => exact rest_close_of_open h

end Quoted

namespace Heredoc

/-- Lines without a closing label are all taken. -/
theorem rest_body_of_open {label : Text} {lines : List Text}
    (h : (body label lines).closed = false) : (body label lines).rest = [] := by
  induction lines with
  | nil => rfl
  | cons line more ih =>
    rw [body] at h ⊢
    split at h
    · rename_i cut hcut
      -- A line that closes the heredoc is cut where its end was found.
      have hclosed : cut.closed = true := by
        unfold closing? at hcut
        dsimp only at hcut
        split at hcut
        · exact absurd hcut.symm (Option.some_ne_none _)
        · split at hcut
          · exact absurd hcut.symm (Option.some_ne_none _)
          · rw [← Option.some.inj hcut]
      exact absurd (hclosed.symm.trans h) (by decide)
    · exact ih h

theorem rest_scan?_of_open {text : Text} {isNowdoc : Bool} {cut : Cut}
    (hfound : scan? text = some (isNowdoc, cut)) (h : cut.closed = false) : cut.rest = [] := by
  rcases Option.map_eq_some_iff.mp hfound with ⟨opening, _, heq⟩
  injection heq with _ hcut
  rw [← hcut] at h ⊢
  exact rest_body_of_open h

end Heredoc

namespace Number

/-- A number needs no end. -/
theorem closed_exponent (text : Text) : (exponent text).closed = true := by
  fun_cases exponent text with
  | case1 | case3 => rfl
  | case2 c rest _ => fun_cases signedDigits rest <;> rfl

theorem closed_scanFraction (text : Text) : (scanFraction text).closed = true := by
  cases text with
  | nil => rfl
  | cons c rest => exact closed_exponent (digits rest).rest

theorem closed_scan (text : Text) : (scan text).2.closed = true := by
  cases text with
  | nil => rfl
  | cons first rest =>
    have hinteger : (integerTail first rest).2.closed = true := by
      fun_cases integerTail first rest <;> rfl
    have htail : (afterInteger (integerTail first rest).2.rest).2.closed = true := by
      fun_cases afterInteger (integerTail first rest).2.rest with
      | case1 => exact closed_scanFraction _
      | case2 => exact closed_exponent _
      | case3 | case4 => rfl
    unfold scan
    dsimp only
    -- A number has no end that could be missing.
    by_cases hmore : (integerTail first rest).1 = true
    · rw [if_pos hmore]
      exact htail
    · rw [if_neg hmore]
      exact hinteger

end Number

namespace Lexer

/-! ## A token in front of the end -/

theorem closed_nameTail (text : Text) : (nameTail text).closed = true := by
  fun_induction nameTail text with
  | case1 | case4 => rfl
  | case2 _ _ _ ih => exact ih
  | case3 _ _ _ _ ih => exact ih

theorem closed_scanPunctuation (text : Text) : (scanPunctuation text).2.closed = true := by
  unfold scanPunctuation
  split
  · rename_i found hfound
    rcases spelling?_eq_some punctuation_pairwise hfound with ⟨_, _, _, hclosed, _⟩
    exact hclosed
  · rfl

/-- A token whose end is missing takes the whole rest of the text. -/
theorem rest_of_open {text : Text} (h : (scan text).2.closed = false) :
    (scan text).2.rest = [] := by
  rcases text with _ | ⟨c, rest⟩
  · rfl
  change (scanFrom c rest).2.closed = false at h
  change (scanFrom c rest).2.rest = []
  revert h
  -- Only strings and heredocs have an end that may be missing.
  fun_cases scanFrom c rest with
  | case1 | case3 => exact fun h => absurd h.symm Bool.false_ne_true
  | case2 =>
    intro h
    unfold scanHeredoc at h ⊢
    split at h
    · rename_i isNowdoc cut hfound
      exact Heredoc.rest_scan?_of_open hfound h
    · exact absurd h.symm Bool.false_ne_true
  | case4 | case5 => exact fun h => Quoted.rest_scan_of_open h
  | case6 => exact fun h => absurd ((Number.closed_scanFraction _).symm.trans h) (by decide)
  | case7 => exact fun h => absurd ((Number.closed_scan _).symm.trans h) (by decide)
  | case8 => exact fun h => absurd ((closed_nameTail rest).symm.trans h) (by decide)
  | case9 => exact fun h => absurd ((closed_scanPunctuation _).symm.trans h) (by decide)

/-- What is taken as a token is taken again where nothing is behind it. -/
theorem scan_taken {taken rest : Text} {kind : Kind} {closed : Bool} (hne : taken ≠ [])
    (h : scan (taken ++ rest) = (kind, ⟨taken, rest, closed⟩)) :
    scan taken = (kind, ⟨taken, [], closed⟩) := by
  by_cases hclosed : closed = true
  · subst hclosed
    -- The end of the text continues no token and breaks no opening line.
    have hfollows : Follows [] [] := ⟨fun _ => rfl, fun _ _ => rfl⟩
    have hbreaks : Heredoc.Breaks [] := by
      intro front back rest label isNowdoc hnil _ hback
      exact absurd (List.append_eq_nil_iff.mp hnil.symm).1 hback
    have hold : scan (taken ++ ([] ++ rest)) = (kind, ⟨taken, [] ++ rest, true⟩) := h
    have hscan := scan_retail hfollows hbreaks hne hold
    rwa [List.append_nil, List.append_nil] at hscan
  · rw [Bool.not_eq_true] at hclosed
    have hrest : rest = [] := by
      have hopen : (scan (taken ++ rest)).2.closed = false := by rw [h, hclosed]
      have hnil := rest_of_open hopen
      rwa [h] at hnil
    rw [hrest, List.append_nil] at h
    exact h

end Lexer

namespace Lexing

/-- How a token was read: no trivia began where it did, and the scanner took its text. -/
theorem exists_scan_of_mem_readFrom {offset : Nat} {text : Text} {tok : Token}
    (h : tok ∈ (readFrom offset text).tokens) : tok.text ≠ [] ∧ ∃ rest closed,
      Trivia.scan? true (tok.text ++ rest) = none ∧
        Lexer.scan (tok.text ++ rest) = (tok.kind, ⟨tok.text, rest, closed⟩) := by
  fun_induction readFrom offset text with
  | case1 => exact absurd h List.not_mem_nil
  | case2 offset text leading start _ hrest lexeme size trailing stop errors more ih =>
    rcases List.mem_cons.mp h with rfl | h
    -- The token was scanned from where no trivia were left.
    · have hsplits : lexeme.2.taken ++ lexeme.2.rest = leading.rest :=
        Lexer.splits_scan leading.rest
      refine ⟨Lexer.taken_scan_ne_nil hrest, lexeme.2.rest, lexeme.2.closed, ?_, ?_⟩
      · rw [hsplits]
        exact Trivia.scan?_rest_scanAll true text
      · rw [hsplits]
    · exact ih h

/-- A text that is taken as one token, without trivia in front, is read as this token alone. -/
theorem all_of_scan {text : Text} {kind : Kind} {closed : Bool} (hne : text ≠ [])
    (hnone : Trivia.scan? true text = none) (hscan : Lexer.scan text = (kind, ⟨text, [], closed⟩)) :
    (Lexing.of text).all = [⟨[], kind, text, []⟩, ⟨[], .endOfFile, [], []⟩] := by
  have hend (leading : Bool) : Trivia.scanAll leading [] = ⟨[], [], true⟩ :=
    (Trivia.Takes.nil rfl).scanAll
  unfold Lexing.of
  rw [readFrom]
  dsimp only
  rw [(Trivia.Takes.nil hnone).scanAll]
  dsimp only
  rw [dif_neg hne, hscan]
  dsimp only
  rw [hend]
  dsimp only
  rw [readFrom]
  dsimp only
  rw [hend]
  rfl

/-- Every token of every text is the one token of its own text: it has its kind there, it is all of
    that text, and it has no trivia. -/
theorem token_by_itself {text : Text} {tok : Token} (h : tok ∈ (Lexing.of text).tokens) :
    (Lexing.of tok.text).all = [⟨[], tok.kind, tok.text, []⟩, ⟨[], .endOfFile, [], []⟩] := by
  rcases exists_scan_of_mem_readFrom h with ⟨hne, rest, closed, hnone, hscan⟩
  have hfollows : Follows tok.text [] := ⟨fun hnil => absurd hnil hne, fun _ _ => rfl⟩
  have hnone' := Trivia.scan?_eq_none_retail hne hfollows hnone
  rw [List.append_nil] at hnone'
  exact all_of_scan hne hnone' (Lexer.scan_taken hne hscan)

/-- A shift operator that could have opened a heredoc, between a number that goes on over a sign and
    a string without its end. -/
theorem token_by_itself_shift :
    (⟨[], .operator, "<<".toList, []⟩ : Token) ∈ (Lexing.of "1e+<<<A \"".toList).tokens ∧
      (Lexing.of "<<".toList).all =
        [⟨[], .operator, "<<".toList, []⟩, ⟨[], .endOfFile, [], []⟩] := by
  have hmem : (⟨[], .operator, "<<".toList, []⟩ : Token) ∈
      (Lexing.of "1e+<<<A \"".toList).tokens := by
    decide +kernel
  exact ⟨hmem, token_by_itself hmem⟩

end Lexing

end PhpAssist

import PhpAssist.Proofs.CleanTexts
import PhpAssist.Proofs.TokenEnds

/-!
# Reading a stretch of tokens

A text is read token by token, and what was read up to a point does not depend on how it will go
on, as long as the last token before the point ends there. So a stretch of tokens can be cut out of
a text and put in front of another one, where the same tokens are read from it.

## Main definitions

* `Lexes`: Tokens are read from a text up to a rest.
* `Token.startWith`, `Token.endWith`: Tokens with other trivia at their two ends.
* `Trivia.Leads`: Trivia that may stand in front of a token.

## Theorems

* `Lexing.lexes_of`, `Lexes.readFrom`: Reading a text without an error, and back.
* `Lexes.split`, `Lexes.append`: Stretches of tokens.
* `Lexes.retail`: A stretch of tokens in front of another text.
-/

namespace PhpAssist

open Text

/-- Tokens are read without an error from a text up to a rest. -/
inductive Lexes : List Token → Text → Text → Prop
  | nil {text : Text} : Lexes [] text text
  | cons {tok : Token} {more : List Token} {text after between rest : Text}
      (hleading : Trivia.Takes true tok.leading text (tok.text ++ after)) (hne : tok.text ≠ [])
      (hscan : Lexer.scan (tok.text ++ after) = (tok.kind, ⟨tok.text, after, true⟩))
      (htrailing : Trivia.Takes false tok.trailing after between)
      (hmore : Lexes more between rest) : Lexes (tok :: more) text rest

namespace Lexes

variable {tokens : List Token} {text rest : Text}

theorem text_eq (h : Lexes tokens text rest) : text = tokens.flatMap Token.fullText ++ rest := by
  induction h with
  | nil => rfl
  | cons hleading _ _ htrailing _ ih =>
    rw [hleading.text_eq, htrailing.text_eq, ih]
    simp only [List.flatMap_cons, Token.fullText, Token.leadingText, Token.trailingText,
      List.append_assoc]

theorem text_ne_nil (h : Lexes tokens text rest) : ∀ tok ∈ tokens, tok.text ≠ [] := by
  induction h with
  | nil => exact fun _ h => absurd h List.not_mem_nil
  | cons _ hne _ _ _ ih =>
    intro tok htok
    rcases List.mem_cons.mp htok with rfl | htok
    · exact hne
    · exact ih tok htok

theorem append {more : List Token} {last : Text} (h : Lexes tokens text rest)
    (hmore : Lexes more rest last) : Lexes (tokens ++ more) text last := by
  induction h with
  | nil => exact hmore
  | cons hleading hne hscan htrailing _ ih => exact .cons hleading hne hscan htrailing (ih hmore)

/-- What is read are tokens, and no trivia. -/
theorem isLexeme (h : Lexes tokens text rest) :
    ∀ tok ∈ tokens, tok.kind.isLexeme = true := by
  induction h with
  | nil => exact fun _ h => absurd h List.not_mem_nil
  | @cons tok _ _ after _ _ _ hne hscan _ _ ih =>
    intro other hother
    rcases List.mem_cons.mp hother with rfl | hother
    -- The text is not empty, so its first character is what was scanned from.
    · rcases htext : other.text with _ | ⟨c, text⟩
      · exact absurd htext hne
      · have hlexeme := Lexer.isLexeme_scanFrom c (text ++ after)
        rw [htext] at hscan
        rwa [show Lexer.scanFrom c (text ++ after) = _ from hscan] at hlexeme
    · exact ih other hother

/-- A stretch of tokens is read by reading its parts. -/
theorem split {more : List Token} {last : Text} (h : Lexes (tokens ++ more) text last) :
    ∃ rest, Lexes tokens text rest ∧ Lexes more rest last := by
  induction tokens generalizing text with
  | nil => exact ⟨text, .nil, h⟩
  | cons tok tokens ih =>
    rw [List.cons_append] at h
    cases h with
    | cons hleading hne hscan htrailing hmore =>
      rcases ih hmore with ⟨rest, hrest, hlast⟩
      exact ⟨rest, .cons hleading hne hscan htrailing hrest, hlast⟩

/-- The tokens of a text that is read up to trivia at its end. -/
theorem readFrom {leading : List Trivia} (h : Lexes tokens text rest)
    (hend : Trivia.Takes true leading rest []) (offset : Nat) :
    Lexing.readFrom offset text = ⟨tokens, ⟨leading, .endOfFile, [], []⟩, []⟩ := by
  induction h generalizing offset with
  | @nil text =>
    rw [Lexing.readFrom]
    dsimp only
    rw [hend.scanAll, dif_pos rfl]
    rfl
  | @cons tok more text after between rest hleading hne hscan htrailing _ ih =>
    have hne' : tok.text ++ after ≠ [] := List.append_ne_nil_of_left_ne_nil hne _
    rw [Lexing.readFrom]
    dsimp only
    rw [hleading.scanAll]
    dsimp only
    rw [dif_neg hne', hscan]
    dsimp only
    rw [htrailing.scanAll]
    dsimp only
    rw [ih hend]
    rfl

end Lexes

namespace Lexing

theorem triviaErrors_eq_nil {run : Trivia.Run} {stop : Nat} (h : triviaErrors run stop = []) :
    run.closed = true := by
  rw [triviaErrors] at h
  split at h
  · assumption
  · exact absurd h (List.cons_ne_nil _ _)

/-- What is read without an error is read up to trivia at the end. -/
theorem lexes_readFrom (offset : Nat) (text : Text) (h : (readFrom offset text).errors = []) :
    ∃ rest, Lexes (readFrom offset text).tokens text rest ∧
      Trivia.Takes true (readFrom offset text).last.leading rest [] := by
  fun_induction readFrom offset text with
  | case1 offset text leading _ _ hnone =>
    have htakes := Trivia.takes_scanAll (triviaErrors_eq_nil h)
    rw [show (Trivia.scanAll true text).rest = [] from hnone] at htakes
    exact ⟨text, .nil, htakes⟩
  | case2 offset text leading start leadingErrors hrest lexeme size trailing stop errors more ih =>
    rw [List.append_eq_nil_iff, List.append_eq_nil_iff, List.append_eq_nil_iff] at h
    rcases h with ⟨⟨⟨hleadingErrors, hnone⟩, htrailingErrors⟩, hmoreErrors⟩
    -- An open literal would have been reported.
    have hclosed : lexeme.2.closed = true := by
      by_contra hopen
      rw [show errors = _ from if_neg hopen] at hnone
      exact absurd hnone (List.cons_ne_nil _ _)
    rcases ih hmoreErrors with ⟨rest, hmore, hend⟩
    refine ⟨rest, ?_, hend⟩
    have hleading := Trivia.takes_scanAll (triviaErrors_eq_nil hleadingErrors)
    have htrailing := Trivia.takes_scanAll (triviaErrors_eq_nil htrailingErrors)
    -- What was scanned and what is left of it make up the text behind the trivia.
    have hsplits : lexeme.2.taken ++ lexeme.2.rest = leading.rest :=
      Lexer.splits_scan leading.rest
    have hne : lexeme.2.taken ≠ [] := Lexer.taken_scan_ne_nil hrest
    have hscan : Lexer.scan leading.rest = (lexeme.1, ⟨lexeme.2.taken, lexeme.2.rest, true⟩) := by
      rw [← hclosed]
    rw [show (Trivia.scanAll true text).rest = leading.rest from rfl, ← hsplits] at hleading
    rw [← hsplits] at hscan
    exact @Lexes.cons ⟨leading.pieces, lexeme.1, lexeme.2.taken, trailing.pieces⟩ _ _ _ _ _
      hleading hne hscan htrailing hmore

theorem lexes_of {text : Text} (h : (Lexing.of text).errors = []) :
    ∃ rest, Lexes (Lexing.of text).tokens text rest ∧
      Trivia.Takes true (Lexing.of text).last.leading rest [] :=
  lexes_readFrom 0 text h

end Lexing

theorem Lexes.spells {tokens : List Token} {text rest : Text} {leading : List Trivia}
    (h : Lexes tokens text rest) (hend : Trivia.Takes true leading rest []) :
    Lexing.Spells text (tokens.map Token.word) := by
  have hof : Lexing.of text = _ := h.readFrom hend 0
  exact ⟨by rw [hof], by rw [hof]⟩

/-! ## Another text behind a stretch -/

namespace Trivia

variable {leading : Bool} {pieces : List Trivia} {text rest front old other : Text}

/-- Behind trivia there is none. -/
theorem Takes.scan?_rest (h : Takes leading pieces text rest) : scan? leading rest = none := by
  induction h with
  | nil htext => exact htext
  | cons _ _ ih => exact ih

/-- Whether trivia begins is told by two characters. -/
theorem scan?_eq_none_iff {c : Char} : scan? leading (c :: rest) = none ↔
    (leading = true → isLineEnd c = false) ∧ isSpace c = false ∧ c ≠ '#' ∧
      (c = '/' → rest.head? ≠ some '/' ∧ rest.head? ≠ some '*') := by
  rw [scan?_cons]
  -- The branches in the order in which the scanner asks.
  split
  · rename_i hline
    rw [Bool.and_eq_true] at hline
    simp only [reduceCtorEq, hline.1, hline.2, forall_const, Bool.true_eq_false, false_and]
  rename_i hline
  have hline' : leading = true → isLineEnd c = false := by
    rintro rfl
    simpa only [Bool.true_and, Bool.not_eq_true] using hline
  split
  · rename_i hspace
    simp only [reduceCtorEq, hspace, Bool.true_eq_false, false_and, and_false]
  rename_i hspace
  rw [Bool.not_eq_true] at hspace
  split
  · rename_i hcomment
    simp only [reduceCtorEq, false_iff]
    rintro ⟨_, _, hhash, hslash⟩
    rcases hcomment with hc | ⟨hc, hhead⟩
    · exact hhash hc
    · exact (hslash hc).1 hhead
  rename_i hcomment
  rw [not_or, not_and] at hcomment
  split
  · rename_i body
    simp only [reduceCtorEq, false_iff]
    rintro ⟨_, _, _, hslash⟩
    exact (hslash trivial).2 rfl
  · rename_i hstar
    -- Nothing was taken: the negation of every question.
    refine ⟨fun _ => ⟨hline', hspace, hcomment.1, fun hc => ⟨hcomment.2 hc, fun hhead => ?_⟩⟩,
      fun _ => rfl⟩
    rcases rest with _ | ⟨d, rest⟩
    · exact absurd hhead (by simp only [List.head?_nil, reduceCtorEq, not_false_eq_true])
    · rw [List.head?_cons, Option.some.injEq] at hhead
      exact hstar rest hc (by rw [hhead])

/-- No trivia is taken from a text that does not begin with any. -/
theorem Takes.eq_nil (h : Takes leading pieces text rest) (hnone : scan? leading text = none) :
    pieces = [] ∧ rest = text := by
  cases h with
  | nil => exact ⟨rfl, rfl⟩
  | cons hpiece _ => exact absurd (hnone.symm.trans hpiece) nofun

/-- Where a line comment goes on, the trivia of a text that begins with none ends. -/
theorem stops_of_none (hother : scan? true other = none)
    (htext : text.head?.any isCommentChar = true) : Stops text other := by
  intro p hp hold
  rcases other with _ | ⟨c, other⟩
  · rfl
  have hnone := scan?_eq_none_iff.mp hother
  simp only [List.mem_cons, List.not_mem_nil, or_false] at hp
  rcases hp with rfl | rfl | rfl
  · exact hnone.1 rfl
  · exact hnone.2.1
  · exact absurd (hold.symm.trans htext) Bool.false_ne_true

/-- Where no trivia begins in front of a text, none begins in front of one that can follow. -/
theorem scan?_eq_none_retail (hne : front ≠ []) (hfollows : Follows front other)
    (h : scan? leading (front ++ old) = none) : scan? leading (front ++ other) = none := by
  rcases front with _ | ⟨c, front⟩
  · exact absurd rfl hne
  rw [List.cons_append, scan?_eq_none_iff] at h ⊢
  refine ⟨h.1, h.2.1, h.2.2.1, fun hc => ?_⟩
  rcases front with _ | ⟨d, front⟩
  -- A slash at the end is the one case where what follows decides.
  · rcases other with _ | ⟨d, other⟩
    · exact ⟨nofun, nofun⟩
    · have hquiet := hfollows.head_quiet
      have hslash : isQuiet c '/' = false := by simp only [isQuiet]; rfl
      have hstar : isQuiet c '*' = false := by simp only [isQuiet]; rfl
      refine ⟨fun hd => ne_of_isQuiet hquiet hslash (Option.some.inj hd),
        fun hd => ne_of_isQuiet hquiet hstar (Option.some.inj hd)⟩
  · exact h.2.2.2 hc

/-- Trivia in front of a text whose beginning stays. -/
theorem Takes.retail_append (h : Takes leading pieces text (front ++ old)) (hne : front ≠ [])
    (hfollows : Follows front other) :
    Takes leading pieces (pieces.flatMap Trivia.text ++ (front ++ other)) (front ++ other) := by
  have hnone := scan?_eq_none_retail hne hfollows h.scan?_rest
  rcases front with _ | ⟨c, front⟩
  · exact absurd rfl hne
  exact h.retail (.same c _ _) hnone

end Trivia

namespace Token

/-- The text of a token in front of the trivia behind it. -/
def frontText (token : Token) : Text := token.leadingText ++ token.text

/-- A row of tokens with other trivia in front of the first. -/
def startWith (leading : List Trivia) : List Token → List Token
  | [] => []
  | tok :: more => { tok with leading := leading } :: more

/-- A row of tokens with other trivia behind the last. -/
def endWith (trailing : List Trivia) : List Token → List Token
  | [] => []
  | [tok] => [{ tok with trailing := trailing }]
  | tok :: next :: more => tok :: endWith trailing (next :: more)

theorem endWith_append_singleton (trailing : List Trivia) (tokens : List Token) (tok : Token) :
    endWith trailing (tokens ++ [tok]) = tokens ++ [{ tok with trailing := trailing }] := by
  induction tokens with
  | nil => rfl
  | cons first tokens ih =>
    rcases tokens with _ | ⟨next, tokens⟩
    · rfl
    · rw [List.cons_append, List.cons_append, endWith, ← List.cons_append, ih]
      rfl

theorem word_endWith (trailing : List Trivia) (tokens : List Token) :
    (endWith trailing tokens).map word = tokens.map word := by
  rcases List.eq_nil_or_concat tokens with rfl | ⟨front, tok, rfl⟩
  · rfl
  · rw [List.concat_eq_append, endWith_append_singleton, List.map_append, List.map_append]
    rfl

theorem word_startWith (leading : List Trivia) (tokens : List Token) :
    (startWith leading tokens).map word = tokens.map word := by
  cases tokens <;> rfl

end Token

namespace Lexes

variable {tokens : List Token} {text rest : Text}

/-- The last token of a stretch ends there in front of another text. -/
theorem scan_last {tok : Token} (h : Lexes (tokens ++ [tok]) text rest) {other : Text}
    (hfollows : Follows [] other) (hbreaks : Heredoc.Breaks other) :
    Lexer.scan (tok.text ++ other) = (tok.kind, ⟨tok.text, other, true⟩) := by
  rcases h.split with ⟨mid, _, hlast⟩
  cases hlast with
  | @cons _ _ _ after _ _ hleading hne hscan htrailing hmore =>
    rw [← List.nil_append after] at hscan
    exact Lexer.scan_retail hfollows hbreaks hne hscan

/-- A stretch of tokens in front of a text that goes on differently from some point behind the last
    token, which ends in front of the new text as well. -/
theorem retail_between {tok : Token} {trailing : List Trivia} {between old other last : Text}
    (h : Lexes (tokens ++ [tok]) text rest) (hold : tok.trailingText ++ rest = between ++ old)
    (hscan : Lexer.scan (tok.text ++ (between ++ other)) =
      (tok.kind, ⟨tok.text, between ++ other, true⟩))
    (hfollows : Follows (tok.text ++ between) other) (hbreaks : Heredoc.Breaks other)
    (hother : Trivia.Takes false trailing (between ++ other) last) :
    Lexes (tokens ++ [{ tok with trailing := trailing }])
      (tokens.flatMap Token.fullText ++ (tok.frontText ++ (between ++ other))) last := by
  induction tokens generalizing text with
  | nil =>
    rw [List.nil_append] at h
    cases h with
    | @cons _ _ _ after _ _ hleading hne _ htrailing hmore =>
      have hafter : after = between ++ old := by
        cases hmore
        rw [htrailing.text_eq]
        exact hold
      rw [hafter, ← List.append_assoc] at hleading
      have hfront := hleading.retail_append (List.append_ne_nil_of_left_ne_nil hne _) hfollows
      rw [List.append_assoc] at hfront
      rw [List.flatMap_nil, List.nil_append, List.nil_append, Token.frontText, List.append_assoc]
      exact .cons hfront hne hscan hother .nil
  | cons first tokens ih =>
    rw [List.cons_append] at h
    cases h with
    | @cons _ _ _ after gap _ hleading hne hscan' htrailing hmore =>
      -- Everything between the first token and the other text stays.
      have hlast : tok.text ≠ [] := hmore.text_ne_nil tok (by simp only [List.mem_append,
        List.mem_singleton, or_true])
      -- The text behind the first token, with the front that stays cut off.
      have hgap : gap = (tokens.flatMap Token.fullText ++ (tok.frontText ++ between)) ++ old := by
        rw [hmore.text_eq]
        simp only [List.flatMap_append, List.flatMap_singleton, Token.fullText, Token.frontText,
          List.append_assoc, hold]
      have hafter : after = (first.trailingText ++
          (tokens.flatMap Token.fullText ++ (tok.frontText ++ between))) ++ old := by
        rw [htrailing.text_eq, hgap]
        simp only [Token.trailingText, List.append_assoc]
      -- The other text follows the whole of what stays, so each scan stops where it did.
      have hnear : Follows (tokens.flatMap Token.fullText ++ (tok.frontText ++ between)) other := by
        rw [Token.frontText, List.append_assoc, ← List.append_assoc]
        exact hfollows.append _
      have hne' : tokens.flatMap Token.fullText ++ (tok.frontText ++ between) ≠ [] := by
        rw [Token.frontText, List.append_assoc]
        refine List.append_ne_nil_of_right_ne_nil _ (List.append_ne_nil_of_right_ne_nil _ ?_)
        exact List.append_ne_nil_of_left_ne_nil hlast _
      rw [hgap] at htrailing
      rw [hafter] at hscan' hleading
      have htail := htrailing.retail_append hne' hnear
      have hhead := hleading
      rw [← List.append_assoc] at hhead
      have hfront := hhead.retail_append
        (List.append_ne_nil_of_left_ne_nil hne _) ((hnear.append _).append _)
      have htext : (first :: tokens).flatMap Token.fullText ++ (tok.frontText ++ (between ++ other)) =
          first.leading.flatMap Trivia.text ++ ((first.text ++ (first.trailingText ++
            (tokens.flatMap Token.fullText ++ (tok.frontText ++ between)))) ++ other) := by
        simp only [List.flatMap_cons, Token.fullText, Token.leadingText, List.append_assoc]
      rw [htext]
      rw [List.append_assoc first.text] at hfront ⊢
      rw [← List.append_assoc] at htail
      have hstep := ih hmore
      rw [← List.append_assoc tok.frontText, ← List.append_assoc] at hstep
      exact .cons hfront hne (Lexer.scan_retail (hnear.append _) hbreaks hne hscan') htail hstep

/-- A stretch of tokens in front of another text, in front of which the last token ends. -/
theorem retail {tok : Token} {trailing : List Trivia} {other last : Text}
    (h : Lexes (tokens ++ [tok]) text rest)
    (hscan : Lexer.scan (tok.text ++ other) = (tok.kind, ⟨tok.text, other, true⟩))
    (hfollows : Follows tok.text other) (hbreaks : Heredoc.Breaks other)
    (hother : Trivia.Takes false trailing other last) :
    Lexes (tokens ++ [{ tok with trailing := trailing }])
      (tokens.flatMap Token.fullText ++ (tok.frontText ++ other)) last := by
  have hold : tok.trailingText ++ rest = [] ++ (tok.trailingText ++ rest) := rfl
  exact h.retail_between hold hscan (by rwa [List.append_nil]) hbreaks hother

/-- The first token of a stretch with other trivia in front of it. -/
theorem startWith {tok : Token} {leading : List Trivia} {body other : Text}
    (h : Lexes (tok :: tokens) (tok.leadingText ++ body) rest)
    (hleading : Trivia.Takes true leading other body) :
    Lexes ({ tok with leading := leading } :: tokens) other rest := by
  cases h with
  | cons hleading' hne hscan htrailing hmore =>
    have hbody := hleading'.text_eq
    rw [Token.leadingText, List.append_cancel_left_eq] at hbody
    rw [hbody] at hleading
    exact .cons hleading hne hscan htrailing hmore

end Lexes

/-- Trivia that are read in front of every text that does not begin with trivia. -/
def Trivia.Leads (leading : List Trivia) : Prop :=
  ∀ body, Trivia.scan? true body = none →
    Trivia.Takes true leading (leading.flatMap Trivia.text ++ body) body

theorem Trivia.leads_nil : Trivia.Leads [] := fun _ h => .nil h

namespace Token

/-- The text of a row of tokens without the trivia at its ends. -/
def trimmed (tokens : List Token) : Text :=
  (startWith [] (endWith [] tokens)).flatMap fullText

theorem startWith_endWith_append (tokens : List Token) (tok : Token) (trailing : List Trivia) :
    ∃ first more, endWith trailing (tokens ++ [tok]) = first :: more ∧
      tokens.flatMap fullText ++ tok.frontText = first.leadingText ++ trimmed (tokens ++ [tok]) := by
  rw [trimmed, endWith_append_singleton, endWith_append_singleton]
  -- A single token is first and last at once.
  rcases tokens with _ | ⟨first, tokens⟩
  · refine ⟨_, _, rfl, ?_⟩
    simp only [List.flatMap_nil, List.nil_append, startWith, List.flatMap_singleton, fullText,
      frontText, leadingText, trailingText, List.append_nil]
  · refine ⟨_, _, rfl, ?_⟩
    simp only [List.cons_append, startWith, List.flatMap_cons, List.flatMap_append, fullText,
      frontText, leadingText, trailingText, List.flatMap_nil, List.nil_append, List.append_nil,
      List.append_assoc]

end Token

/-- A stretch of tokens taken out of a text and put between trivia and another text. -/
theorem Lexes.moved {tokens : List Token} {text rest other last : Text}
    {leading trailing : List Trivia} (h : Lexes tokens text rest) (hne : tokens ≠ [])
    (hleading : Trivia.Leads leading) (hfollows : Follows [] other)
    (hbreaks : Heredoc.Breaks other) (hother : Trivia.Takes false trailing other last) :
    Lexes (Token.startWith leading (Token.endWith trailing tokens))
      (leading.flatMap Trivia.text ++ (Token.trimmed tokens ++ other)) last := by
  rcases List.eq_nil_or_concat tokens with rfl | ⟨front, tok, rfl⟩
  · exact absurd rfl hne
  rw [List.concat_eq_append] at *
  have hfollows' : Follows tok.text other := by
    have happend := hfollows.append tok.text
    rwa [List.append_nil] at happend
  -- First what stands behind is exchanged, then what stands in front.
  have hlast := h.retail (h.scan_last hfollows hbreaks) hfollows' hbreaks hother
  rcases Token.startWith_endWith_append front tok trailing with ⟨first, more, htokens, htext⟩
  rw [← Token.endWith_append_singleton, htokens, ← List.append_assoc, htext,
    List.append_assoc] at hlast
  rw [htokens]
  refine hlast.startWith (hleading _ ?_)
  -- Trivia cannot take more than the leading ones: a token is next.
  cases hlast with
  | cons hleading' _ _ _ _ =>
    have hbody := hleading'.text_eq
    rw [Token.leadingText, List.append_cancel_left_eq] at hbody
    rw [hbody]
    exact hleading'.scan?_rest

end PhpAssist

import PhpAssist.Token.Lexer

/-!
# What reading tokens gives

Reading a text into tokens loses nothing: the tokens with their trivia are the text again, in
order. The token for the end of the text comes once, behind all others, and no token has a kind
that trivia have.

## Main definitions

* `Kind.isLexeme`: The kinds that a token in front of the end may have.

## Theorems

* `Lexing.fullText_all`: The tokens make up the text.
* `Lexing.isLexeme_of_mem`, `Lexing.kind_last`: What kinds tokens have.
-/

namespace PhpAssist

/-- Whether a token in front of the end of the text may have a kind. -/
def Kind.isLexeme (kind : Kind) : Bool := !kind.isTrivia && kind != .endOfFile

theorem Kind.isTrivia_of_isLexeme {kind : Kind} (h : kind.isLexeme = true) :
    kind.isTrivia = false := by
  rw [isLexeme, Bool.and_eq_true, Bool.not_eq_true'] at h
  exact h.1

theorem Kind.ne_endOfFile_of_isLexeme {kind : Kind} (h : kind.isLexeme = true) :
    kind ≠ .endOfFile := by
  rw [isLexeme, Bool.and_eq_true, bne_iff_ne] at h
  exact h.2

namespace Lexer

theorem isLexeme_spelling? {table : List (String × Kind)} {text : Text} {kind : Kind} {cut : Cut}
    (htable : ∀ entry ∈ table, entry.2.isLexeme = true)
    (h : spelling? table text = some (kind, cut)) : kind.isLexeme = true := by
  induction table with
  | nil => exact absurd h (by simp only [spelling?, reduceCtorEq, not_false_eq_true])
  | cons entry more ih =>
    rw [spelling?] at h
    split at h
    · injection h with h
      injection h with h _
      rw [← h]
      exact htable entry List.mem_cons_self
    · exact ih (fun e he => htable e (List.mem_cons_of_mem entry he)) h

theorem isLexeme_scanPunctuation (text : Text) : (scanPunctuation text).1.isLexeme = true := by
  rw [scanPunctuation]
  split
  · rename_i found hfound
    exact isLexeme_spelling? (by decide) hfound
  · rfl

theorem isLexeme_scanHeredoc (text : Text) : (scanHeredoc text).1.isLexeme = true := by
  rw [scanHeredoc]
  split
  · rename_i isNowdoc cut _
    cases isNowdoc <;> rfl
  · rfl

theorem isLexeme_scanNumber (text : Text) : (scanNumber text).1.isLexeme = true := by
  rw [scanNumber]
  split <;> rfl

theorem isLexeme_scanName (c : Char) (rest : Text) : (scanName c rest).1.isLexeme = true := by
  have hkeywords : ∀ entry ∈ Kind.keywords, entry.2.isLexeme = true := by decide
  rw [scanName]
  dsimp only
  rcases hword : Kind.ofKeyword? ((nameTail rest).cons c).taken with _ | kind
  · rfl
  · rw [Option.getD_some]
    rcases Option.map_eq_some_iff.1 hword with ⟨entry, hentry, hkind⟩
    rw [← hkind]
    exact hkeywords entry (List.mem_of_find?_eq_some hentry)

/-- A token of a text that has not ended is neither trivia nor the end. -/
theorem isLexeme_scanFrom (c : Char) (rest : Text) : (scanFrom c rest).1.isLexeme = true := by
  fun_cases scanFrom c rest with
  | case1 | case3 | case4 | case5 | case6 => rfl
  | case2 => exact isLexeme_scanHeredoc _
  | case7 => exact isLexeme_scanNumber _
  | case8 => exact isLexeme_scanName c rest
  | case9 => exact isLexeme_scanPunctuation _

end Lexer

namespace Lexing

/-- The tokens of a text, the one for its end included, make up the text. -/
theorem fullText_readFrom (offset : Nat) (text : Text) :
    (readFrom offset text).all.flatMap Token.fullText = text := by
  fun_induction readFrom offset text with
  | case1 offset text leading _ _ h =>
    have hleading := Trivia.scanAll_splits true text
    rw [show (Trivia.scanAll true text).rest = [] from h, List.append_nil] at hleading
    simp only [all, List.nil_append, List.flatMap_singleton, Token.fullText, Token.leadingText,
      Token.trailingText, List.flatMap_nil, List.append_nil]
    exact hleading
  | case2 offset text leading start _ h lexeme size trailing stop errors more ih =>
    have hleading := Trivia.scanAll_splits true text
    have hlexeme : lexeme.2.taken ++ lexeme.2.rest = leading.rest :=
      Lexer.splits_scan leading.rest
    have htrailing : trailing.pieces.flatMap Trivia.text ++ trailing.rest = lexeme.2.rest :=
      Trivia.scanAll_splits false lexeme.2.rest
    have hmore : more.tokens.flatMap Token.fullText ++ more.last.fullText = trailing.rest := by
      rw [← ih, all, List.flatMap_append, List.flatMap_singleton]
    have htext : leading.pieces.flatMap Trivia.text ++ leading.rest = text := hleading
    rw [all, List.flatMap_append, List.flatMap_cons, List.flatMap_singleton, List.append_assoc,
      hmore, ← htext, ← hlexeme, ← htrailing]
    simp only [Token.fullText, Token.leadingText, Token.trailingText, List.append_assoc]

theorem fullText_all (text : Text) : (Lexing.of text).all.flatMap Token.fullText = text :=
  fullText_readFrom 0 text

theorem isLexeme_of_mem_readFrom {offset : Nat} {text : Text} {tok : Token}
    (h : tok ∈ (readFrom offset text).tokens) : tok.kind.isLexeme = true := by
  fun_induction readFrom offset text with
  | case1 => exact absurd h List.not_mem_nil
  | case2 offset text leading start _ hrest lexeme size trailing stop errors more ih =>
    rcases List.mem_cons.mp h with rfl | h
    · show (Lexer.scan leading.rest).1.isLexeme = true
      rcases htext : leading.rest with _ | ⟨c, rest⟩
      · exact absurd htext hrest
      · exact Lexer.isLexeme_scanFrom c rest
    · exact ih h

/-- A token in front of the end is neither trivia nor the end. -/
theorem isLexeme_of_mem {text : Text} {tok : Token} (h : tok ∈ (Lexing.of text).tokens) :
    tok.kind.isLexeme = true :=
  isLexeme_of_mem_readFrom h

theorem kind_last_readFrom (offset : Nat) (text : Text) :
    (readFrom offset text).last.kind = .endOfFile := by
  fun_induction readFrom offset text with
  | case1 => rfl
  | case2 offset text leading start _ hrest lexeme size trailing stop errors more ih => exact ih

theorem kind_last (text : Text) : (Lexing.of text).last.kind = .endOfFile :=
  kind_last_readFrom 0 text

end Lexing

end PhpAssist

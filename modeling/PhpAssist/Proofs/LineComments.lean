import PhpAssist.Proofs.Stretches

/-!
# Where line comments end

A line comment goes on to the end of its line, or of the text. The scanner takes a NUL character
for the end of the text, though, wherever it stands. A comment with a NUL in it is cut off there:
the NUL becomes a token that nothing begins with, and the rest of the comment is read as code.

This is the only way. What stands behind a line comment is the end of the text, a line end or a NUL,
and only in front of a NUL is the comment not whole. It can be seen from the pieces that a text is
read into, since no piece but that one token begins with a NUL.

## Main definitions

* `Piece.Each`: A property of every piece of a row and of the text behind it.
* `Piece.Fits`: What is said about a piece in front of a text.
* `Piece.IsWhole`: A comment that goes on to the end of its line.

## Theorems

* `Trivia.fits_of_scan?`, `Lexing.each_readFrom`: What every piece of a text is like.
* `Lexing.comment_whole_iff`: A line comment is whole unless a NUL stands behind it.
* `Lexing.comment_cut_by_nul`: A comment that is cut off.
-/

namespace PhpAssist

open Text

/-- What is taken from a text goes up to the first character that stops it. -/
theorem Text.takeWhile_append_eq_iff {p : Char → Bool} {front rest : Text} :
    (front ++ rest).takeWhile p = front ↔
      (∀ c ∈ front, p c = true) ∧ rest.head?.any p = false := by
  rw [← Cut.run_eq_iff, Cut.run, Cut.mk.injEq]
  constructor
  · intro h
    have hsplits := List.takeWhile_append_dropWhile (p := p) (l := front ++ rest)
    rw [h, List.append_cancel_left_eq] at hsplits
    exact ⟨h, hsplits, rfl⟩
  · exact fun h => h.1

namespace Piece

/-- A property of every piece of a row, asked together with the text behind the piece. -/
def Each (p : Piece → Text → Prop) : List Piece → Text → Prop
  | [], _ => True
  | piece :: more, rest => p piece (more.flatMap Piece.text ++ rest) ∧ Each p more rest

/-- What is said about a piece in front of a text. A line comment begins with its mark and takes all
    that it goes on over, a NUL is a token by itself, and only the end of the text takes nothing. -/
structure Fits (piece : Piece) (behind : Text) : Prop where
  comment : piece.kind = .lineComment →
    (piece.text.head? = some '#' ∨ ∃ more, piece.text = '/' :: '/' :: more) ∧
      (piece.text ++ behind).takeWhile Trivia.isCommentChar = piece.text
  nul : piece.text.head? = some '\x00' → piece = ⟨.unknown, ['\x00']⟩
  ends : piece.text = [] → behind = []

/-- Whether a comment in front of a text goes on to the end of its line. -/
def IsWhole (piece : Piece) (behind : Text) : Prop :=
  (piece.text ++ behind).takeWhile (· != '\n') = piece.text

variable {p : Piece → Text → Prop} {before after : List Piece} {piece : Piece} {rest : Text}

theorem each_append :
    Each p (before ++ after) rest ↔
      Each p before (after.flatMap Piece.text ++ rest) ∧ Each p after rest := by
  induction before with
  | nil => exact ⟨fun h => ⟨trivial, h⟩, fun h => h.2⟩
  | cons first before ih =>
    rw [List.cons_append, Each, Each, ih, List.flatMap_append, List.append_assoc, and_assoc]

/-- A piece of a row, with the text of the pieces behind it. -/
theorem Each.of_append (h : Each p (before ++ piece :: after) rest) :
    p piece (after.flatMap Piece.text ++ rest) :=
  (each_append.mp h).2.1

end Piece

namespace Trivia

/-- What a piece of trivia is like, with the text that it leaves behind it. -/
theorem fits_of_scan? {leading : Bool} {text : Text} {kind : TriviaKind} {cut : Cut}
    (h : scan? leading text = some (kind, cut)) :
    (Trivia.piece ⟨kind, cut.taken⟩).Fits cut.rest := by
  have hne := taken_scan?_ne_nil h
  refine ⟨fun hkind => ?_, fun hnul => ?_, fun hnil => absurd hnil hne⟩
  · revert h
    fun_cases scan? leading text with
    | case4 c rest _ _ hmark =>
      rintro ⟨⟩
      refine ⟨?_, ?_⟩
      · -- The mark is the first character or the first two.
        rcases hmark with hc | ⟨hc, hhead⟩
        · exact .inl (congrArg some hc)
        · rcases rest with _ | ⟨d, rest⟩
          · exact absurd hhead.symm (Option.some_ne_none _)
          · have hd : d = '/' := Option.some.inj hhead
            refine .inr ⟨rest.takeWhile isCommentChar, ?_⟩
            show c :: (d :: rest).takeWhile isCommentChar = _
            rw [hc, hd, List.takeWhile_cons_of_pos (by decide)]
      · have hc : isCommentChar c = true := by
          rcases hmark with rfl | ⟨rfl, _⟩ <;> rfl
        show (c :: (rest.takeWhile isCommentChar ++ rest.dropWhile isCommentChar)).takeWhile
          isCommentChar = c :: rest.takeWhile isCommentChar
        rw [List.takeWhile_append_dropWhile, List.takeWhile_cons_of_pos hc]
    | case2 | case3 | case5 =>
      rintro ⟨⟩
      exact Kind.noConfusion hkind
    | case1 | case6 => exact fun h => absurd h.symm (Option.some_ne_none _)
  · -- No sort of trivia begins with a NUL.
    exfalso
    have hsplits := splits_scan? h
    rcases htaken : cut.taken with _ | ⟨c, more⟩
    · exact hne htaken
    · have hc : c = '\x00' := by
        have hhead : cut.taken.head? = some '\x00' := hnul
        rw [htaken] at hhead
        exact Option.some.inj hhead
      rw [Cut.Splits, htaken, hc, List.cons_append] at hsplits
      have hnone : scan? leading ('\x00' :: (more ++ cut.rest)) = none :=
        scan?_eq_none_iff.mpr
          ⟨fun _ => rfl, rfl, by decide, fun hslash => absurd hslash (by decide)⟩
      rw [← hsplits, hnone] at h
      exact Option.some_ne_none _ h.symm

theorem each_scanAll (leading : Bool) (text : Text) :
    Piece.Each Piece.Fits ((scanAll leading text).pieces.map Trivia.piece)
      (scanAll leading text).rest := by
  fun_induction scanAll leading text with
  | case1 => exact trivial
  | case2 text kind cut hscan more ih =>
    refine ⟨?_, ih⟩
    have hsplits : more.pieces.flatMap Trivia.text ++ more.rest = cut.rest :=
      scanAll_splits leading cut.rest
    rw [Tree.text_pieces, hsplits]
    exact fits_of_scan? hscan

end Trivia

namespace Lexing

/-- A NUL is a token by itself that nothing begins with. -/
theorem scan_nul (rest : Text) :
    Lexer.scan ('\x00' :: rest) = (.unknown, ⟨['\x00'], rest, true⟩) := by
  have hspelling : Lexer.spelling? Lexer.punctuation ['\x00'] = none := by decide
  have htag : Lexer.startsWithOpenTag ('\x00' :: rest) = false := by
    unfold Lexer.startsWithOpenTag
    exact beq_eq_false_iff_ne.mpr fun heq => absurd (List.cons.inj heq).1 (by decide)
  show Lexer.scanFrom '\x00' rest = _
  rw [Lexer.scanFrom_eq, htag, if_neg Bool.false_ne_true]
  show Lexer.scanPunctuation ('\x00' :: rest) = _
  rw [Lexer.scanPunctuation, Lexer.spelling?_eq_none rest hspelling]
  rfl

/-- What a token is like, with the text that it leaves behind it. -/
theorem fits_of_scan {text : Text} (hne : text ≠ []) :
    (⟨(Lexer.scan text).1, (Lexer.scan text).2.taken⟩ : Piece).Fits (Lexer.scan text).2.rest := by
  rcases text with _ | ⟨c, rest⟩
  · exact absurd rfl hne
  refine ⟨fun hkind => ?_, fun hnul => ?_, fun hnil => absurd hnil (Lexer.taken_scan_ne_nil hne)⟩
  · have hlexeme : (Lexer.scan (c :: rest)).1.isLexeme = true := Lexer.isLexeme_scanFrom c rest
    rw [show (Lexer.scan (c :: rest)).1 = .lineComment from hkind] at hlexeme
    exact absurd hlexeme (by decide)
  -- What was scanned begins as the text does, and a NUL is a token by itself.
  · have hsplits := Lexer.splits_scan (c :: rest)
    have hc : c = '\x00' := by
      have hhead := congrArg List.head? hsplits
      rw [List.head?_append, show (Lexer.scan (c :: rest)).2.taken.head? = some '\x00' from hnul]
        at hhead
      exact (Option.some.inj hhead).symm
    rw [hc, scan_nul]

/-- What every piece of a text is like. -/
theorem each_readFrom (offset : Nat) (text : Text) :
    Piece.Each Piece.Fits ((readFrom offset text).all.flatMap Token.pieces) [] := by
  fun_induction readFrom offset text with
  | case1 offset text leading start leadingErrors hrest =>
    have hleading := Trivia.each_scanAll true text
    rw [show (Trivia.scanAll true text).rest = [] from hrest] at hleading
    rw [all, List.nil_append, List.flatMap_singleton, Token.pieces, List.map_nil, Piece.each_append]
    refine ⟨hleading, ⟨?_, ?_, fun _ => rfl⟩, trivial⟩
    · exact fun hkind => Kind.noConfusion hkind
    · exact fun hnul => absurd hnul.symm (Option.some_ne_none _)
  | case2 offset text leading start leadingErrors hrest lexeme size trailing stop errors more ih =>
    have hleading := Trivia.each_scanAll true text
    have htrailing := Trivia.each_scanAll false lexeme.2.rest
    have htoken := fits_of_scan hrest
    -- The text behind each of the three parts is what was left for the next one.
    have hmore : more.all.flatMap Token.fullText = trailing.rest := fullText_readFrom _ _
    have hbehind : trailing.pieces.flatMap Trivia.text ++ trailing.rest = lexeme.2.rest :=
      Trivia.scanAll_splits false lexeme.2.rest
    have hsplits : lexeme.2.taken ++ lexeme.2.rest = leading.rest :=
      Lexer.splits_scan leading.rest
    rw [all, List.cons_append, List.flatMap_cons, ← all, Piece.each_append, Token.pieces,
      Piece.each_append, Piece.Each, Tree.text_flatMap_pieces, hmore, List.append_nil,
      List.flatMap_cons, Tree.text_pieces, hbehind, List.append_assoc, hbehind, hsplits]
    exact ⟨⟨hleading, htoken, htrailing⟩, ih⟩

/-- A line comment of any text takes all characters up to the first line end or NUL. So it is whole
    unless a NUL stands behind it, and a NUL that does is a token, behind which the rest of the line
    is read as code. -/
theorem comment_whole_iff {text : Text} {before after : List Piece} {piece : Piece}
    (h : (Lexing.of text).all.flatMap Token.pieces = before ++ piece :: after)
    (hkind : piece.kind = .lineComment) :
    text = before.flatMap Piece.text ++ (piece.text ++ after.flatMap Piece.text) ∧
      (piece.text.head? = some '#' ∨ ∃ more, piece.text = '/' :: '/' :: more) ∧
      (piece.text ++ after.flatMap Piece.text).takeWhile Trivia.isCommentChar = piece.text ∧
      (piece.IsWhole (after.flatMap Piece.text) ↔
        ¬ ∃ more, after = ⟨.unknown, ['\x00']⟩ :: more) := by
  have heach := each_readFrom 0 text
  rw [show (readFrom 0 text).all.flatMap Token.pieces = _ from h] at heach
  have hfits := heach.of_append
  rw [List.append_nil] at hfits
  have htext := fullText_all text
  rw [← Tree.text_flatMap_pieces, h, List.flatMap_append, List.flatMap_cons] at htext
  rcases hfits.comment hkind with ⟨hmark, htaken⟩
  refine ⟨htext.symm, hmark, htaken, ?_⟩
  rcases takeWhile_append_eq_iff.mp htaken with ⟨hchars, hstop⟩
  have hline : ∀ c ∈ piece.text, (c != '\n') = true := by
    intro c hc
    have hchar := hchars c hc
    rw [Trivia.isCommentChar, Bool.and_eq_true] at hchar
    exact hchar.1
  rw [Piece.IsWhole, takeWhile_append_eq_iff]
  constructor
  · -- A comment that is whole has a line end behind it, if anything.
    rintro ⟨_, hend⟩ ⟨more, rfl⟩
    exact absurd hend (by rw [List.flatMap_cons]; exact Bool.noConfusion)
  · intro hnot
    refine ⟨hline, ?_⟩
    rcases after with _ | ⟨next, more⟩
    · rfl
    rw [List.append_cons] at heach
    have hnext := heach.of_append
    rw [List.append_nil] at hnext
    rw [List.flatMap_cons] at hstop ⊢
    rcases htext : next.text with _ | ⟨c, rest⟩
    · rw [hnext.ends htext]
      rfl
    rw [htext] at hstop
    have hc : Trivia.isCommentChar c = false := hstop
    rw [Trivia.isCommentChar, Bool.and_eq_false_iff] at hc
    rcases hc with hc | hc
    · exact hc
    · -- The comment stopped at a NUL, which is a token then.
      have hnul : c = '\x00' := by rwa [bne_eq_false_iff_eq] at hc
      have hhead : next.text.head? = some '\x00' := by rw [htext, hnul]; rfl
      exact absurd ⟨more, by rw [hnext.nul hhead]⟩ hnot

/-- A comment that a carriage return is part of, between a token and a comment with a NUL in it. -/
theorem comment_whole_return :
    (Lexing.of "; //a\r\n#b\x00c".toList).all.flatMap Token.pieces =
        [⟨.semicolon, [';']⟩, ⟨.whitespace, [' ']⟩] ++ ⟨.lineComment, "//a\r".toList⟩ ::
          [⟨.newline, ['\n']⟩, ⟨.lineComment, "#b".toList⟩, ⟨.unknown, ['\x00']⟩, ⟨.name, ['c']⟩,
            ⟨.endOfFile, []⟩] ∧
      Piece.IsWhole ⟨.lineComment, "//a\r".toList⟩ "\n#b\x00c".toList := by
  have hpieces : (Lexing.of "; //a\r\n#b\x00c".toList).all.flatMap Token.pieces =
      [⟨.semicolon, [';']⟩, ⟨.whitespace, [' ']⟩] ++ ⟨.lineComment, "//a\r".toList⟩ ::
        [⟨.newline, ['\n']⟩, ⟨.lineComment, "#b".toList⟩, ⟨.unknown, ['\x00']⟩, ⟨.name, ['c']⟩,
          ⟨.endOfFile, []⟩] := by
    decide +kernel
  refine ⟨hpieces, (comment_whole_iff hpieces rfl).2.2.2.mpr ?_⟩
  rintro ⟨more, heq⟩
  exact absurd (List.cons.inj heq).1 (by decide)

/-- A comment that is cut off at a NUL. The rest of its line is a name. -/
theorem comment_cut_by_nul :
    (Lexing.of "// a\x00b".toList).all.flatMap Token.pieces =
        [⟨.lineComment, "// a".toList⟩, ⟨.unknown, ['\x00']⟩, ⟨.name, ['b']⟩, ⟨.endOfFile, []⟩] ∧
      ¬ Piece.IsWhole ⟨.lineComment, "// a".toList⟩ "\x00b".toList := by
  refine ⟨by decide +kernel, ?_⟩
  unfold Piece.IsWhole
  decide

end Lexing

end PhpAssist

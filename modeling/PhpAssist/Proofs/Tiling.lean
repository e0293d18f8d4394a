import PhpAssist.Proofs.Bytes
import PhpAssist.Proofs.Lossless
import PhpAssist.Tree.Node

/-!
# Tokens share a text out

The pieces of the tokens of a text (leading trivia, the token itself, trailing trivia) stand one
behind the other with no gap between them, and together they reach from the beginning of the text
to its end. Nothing is asked of the text: a character that begins no token is a token of its own,
and one that stands for the end of the input elsewhere is here a character like any other.

That offsets fall where a character begins comes for free, because every offset is the size of an
initial part of the text. What has to be proved of the scanners is what no sum of sizes can tell:
that a piece is never empty, and on which side of a line end it is put. Trailing trivia stops in
front of a line end, so what is left over there begins with one unless it is a token; this is why
leading trivia behind another token begins with a line end.

## Main definitions

* `Text.IsBoundary`: An offset at which a character begins or the text ends.
* `Span.Tile`: Stretches that follow each other without a gap.
* `Span.row`: Some texts in place, one behind the other.
* `Lexeme.spans`: The pieces of a token where they stand.
* `Lexeme.Partition`: What it is for tokens to share out a text.

## Theorems

* `Span.tile_row`, `Span.isBoundary_of_mem_row`: Texts in place are without a gap, and characters
  begin where they do.
* `Trivia.scan?_rest_scanAll`: Trivia are read as far as they go.
* `Trivia.newline_of_scan?`: What is trivia only in front of a token is a line end.
* `Token.flatMap_spans_lexemes`: The pieces of tokens are their texts in place.
* `Lexing.partition_lexemes`: The tokens of a text share it out.
-/

namespace PhpAssist

/-- Whether a character begins at an offset, or the text ends there. -/
def Text.IsBoundary (text : Text) (offset : Nat) : Prop := (Text.splitAt? offset text).isSome

theorem Text.isBoundary_size (text rest : Text) : IsBoundary (text ++ rest) (size text) := by
  rw [IsBoundary, splitAt?_size]
  rfl

namespace Span

/-- Stretches that follow each other without a gap from one offset to another. -/
inductive Tile : Nat → Nat → List Span → Prop
  | nil (offset : Nat) : Tile offset offset []
  | cons {span : Span} {stop : Nat} {more : List Span} (behind : Tile span.stop stop more) :
    Tile span.start stop (span :: more)

theorem Tile.append {first between last : Nat} {spans more : List Span}
    (h : Tile first between spans) (hmore : Tile between last more) :
    Tile first last (spans ++ more) := by
  induction h with
  | nil => exact hmore
  | cons _ ih => exact .cons (ih hmore)

theorem Tile.le {first last : Nat} {spans : List Span} (h : Tile first last spans) :
    first ≤ last := by
  induction h with
  | nil => exact Nat.le_refl _
  | cons _ ih => exact Nat.le_trans (Nat.le_add_right _ _) ih

/-- Some texts in place, the first of them at an offset. -/
def row : Nat → List Text → List Span
  | _, [] => []
  | offset, text :: more => ⟨offset, Text.size text⟩ :: row (offset + Text.size text) more

theorem row_append (offset : Nat) (texts more : List Text) :
    row offset (texts ++ more) =
      row offset texts ++ row (offset + Text.size texts.flatten) more := by
  induction texts generalizing offset with
  | nil => rfl
  | cons text texts ih =>
    rw [List.cons_append, row, row, ih, List.flatten_cons, Text.size_append, List.cons_append,
      Nat.add_assoc]

theorem tile_row (offset : Nat) (texts : List Text) :
    Tile offset (offset + Text.size texts.flatten) (row offset texts) := by
  induction texts generalizing offset with
  | nil => exact .nil offset
  | cons text texts ih =>
    have hmore := ih (offset + Text.size text)
    rw [Nat.add_assoc, ← Text.size_append, ← List.flatten_cons] at hmore
    exact @Tile.cons ⟨offset, Text.size text⟩ _ _ hmore

/-- Characters begin where texts begin and end whose offsets count what is before them. -/
theorem isBoundary_of_mem_row {before : Text} {texts : List Text} {span : Span}
    (h : span ∈ row (Text.size before) texts) :
    Text.IsBoundary (before ++ texts.flatten) span.start ∧
      Text.IsBoundary (before ++ texts.flatten) span.stop := by
  induction texts generalizing before with
  | nil => exact absurd h List.not_mem_nil
  | cons text texts ih =>
    rw [List.flatten_cons, ← List.append_assoc]
    -- The first span lies between two texts, and the others begin behind it.
    rcases List.mem_cons.mp h with rfl | h
    · refine ⟨?_, ?_⟩
      · rw [List.append_assoc]
        exact Text.isBoundary_size before _
      · rw [stop, ← Text.size_append]
        exact Text.isBoundary_size (before ++ text) _
    · rw [← Text.size_append] at h
      exact ih h

end Span

theorem Leaf.placeTrivia_row (offset : Nat) (trivia : List Trivia) :
    (placeTrivia offset trivia).map Prod.snd = Span.row offset (trivia.map Trivia.text) := by
  induction trivia generalizing offset with
  | nil => rfl
  | cons piece trivia ih =>
    rw [placeTrivia, List.map_cons, ih, List.map_cons, Span.row]

namespace Trivia

/-- No piece of trivia is empty. -/
theorem text_ne_nil_of_mem {leading : Bool} {text : Text} {piece : Trivia}
    (h : piece ∈ (scanAll leading text).pieces) : piece.text ≠ [] := by
  fun_induction scanAll leading text with
  | case1 => exact absurd h List.not_mem_nil
  | case2 text kind cut hscan more ih =>
    rcases List.mem_cons.mp h with rfl | h
    · exact taken_scan?_ne_nil hscan
    · exact ih h

/-- Trivia are read as far as they go: no piece begins behind them. -/
theorem scan?_rest_scanAll (leading : Bool) (text : Text) :
    scan? leading (scanAll leading text).rest = none := by
  fun_induction scanAll leading text with
  | case1 text hscan => exact hscan
  | case2 text kind cut hscan more ih => exact ih

/-- The two ways to look for trivia agree except about line ends. -/
theorem scan?_of_not_lineEnd {c : Char} (h : isLineEnd c = false) (rest : Text) :
    scan? true (c :: rest) = scan? false (c :: rest) := by
  rw [scan?_cons, scan?_cons, h, Bool.true_and, Bool.false_and]

/-- What is trivia in front of a token and not behind one is a line end. -/
theorem newline_of_scan? {text : Text} {kind : TriviaKind} {cut : Cut}
    (hbehind : scan? false text = none) (h : scan? true text = some (kind, cut)) :
    kind = .newline := by
  cases text with
  | nil => exact absurd h (by simp only [scan?, reduceCtorEq, not_false_eq_true])
  | cons c rest =>
    -- The two scans differ at the end of a line only.
    by_cases hc : isLineEnd c = true
    · rw [scan?_cons, hc, Bool.true_and, if_pos rfl, Option.some.injEq, Prod.mk.injEq] at h
      exact h.1.symm
    · rw [Bool.not_eq_true] at hc
      rw [scan?_of_not_lineEnd hc, hbehind] at h
      exact absurd h (by simp only [reduceCtorEq, not_false_eq_true])

theorem ne_newline_of_scan? {text : Text} {kind : TriviaKind} {cut : Cut}
    (h : scan? false text = some (kind, cut)) : kind ≠ .newline := by
  revert h
  fun_cases scan? false text with
  | case1 => exact fun h => absurd h (by simp only [reduceCtorEq, not_false_eq_true])
  | case2 c rest hc => exact absurd hc (by simp only [Bool.false_and, Bool.false_eq_true,
      not_false_eq_true])
  | case3 | case4 | case5 =>
    intro h
    injection h with h
    injection h with h _
    rw [← h]
    exact TriviaKind.noConfusion
  | case6 => exact fun h => absurd h (by simp only [reduceCtorEq, not_false_eq_true])

/-- No line end is read behind a token. -/
theorem ne_newline_of_mem {text : Text} {piece : Trivia}
    (h : piece ∈ (scanAll false text).pieces) : piece.kind ≠ .newline := by
  fun_induction scanAll false text with
  | case1 => exact absurd h List.not_mem_nil
  | case2 text kind cut hscan more ih =>
    rcases List.mem_cons.mp h with rfl | h
    · exact ne_newline_of_scan? hscan
    · exact ih h

/-- Where nothing goes on behind a token, what is read in front of the next one begins with a line
    end. -/
theorem newline_of_mem_head? {text : Text} (hbehind : scan? false text = none) {piece : Trivia}
    (h : piece ∈ (scanAll true text).pieces.head?) : piece.kind = .newline := by
  unfold scanAll at h
  split at h
  · exact absurd h (by simp only [List.head?_nil, Option.mem_def, reduceCtorEq, not_false_eq_true])
  · rename_i kind cut hscan
    rw [List.head?_cons, Option.mem_def, Option.some.injEq] at h
    rw [← h]
    exact newline_of_scan? hbehind hscan

end Trivia

namespace Lexeme

/-- The pieces of a token where they stand: leading trivia, the token itself, trailing trivia. -/
def spans (lexeme : Lexeme) : List Span :=
  let offset := lexeme.span.start - Text.size (lexeme.leading.flatMap Trivia.text)
  (Leaf.placeTrivia offset lexeme.leading).map Prod.snd ++
    lexeme.span :: (Leaf.placeTrivia lexeme.span.stop lexeme.trailing).map Prod.snd

/-- Tokens that share a text out between them. -/
structure Partition (text : Text) (lexemes : List Lexeme) : Prop where
  /-- The end of the text comes once and last, and only it may be an empty token. -/
  ends : ∃ front last, lexemes = front ++ [last] ∧ last.kind = .endOfFile ∧
    ∀ lexeme ∈ front, lexeme.kind ≠ .endOfFile ∧ 0 < lexeme.span.length
  tile : Span.Tile 0 (Text.size text) (lexemes.flatMap spans)
  boundary : ∀ span ∈ lexemes.flatMap spans,
    text.IsBoundary span.start ∧ text.IsBoundary span.stop
  trivia : ∀ lexeme ∈ lexemes, ∀ piece ∈ lexeme.leading ++ lexeme.trailing, piece.text ≠ []
  trailing : ∀ lexeme ∈ lexemes, ∀ piece ∈ lexeme.trailing, piece.kind ≠ .newline
  leading : ∀ lexeme ∈ lexemes.tail, ∀ piece ∈ lexeme.leading.head?, piece.kind = .newline

end Lexeme

namespace Token

/-- The texts of the pieces of a token. -/
def texts (tok : Token) : List Text :=
  tok.leading.map Trivia.text ++ tok.text :: tok.trailing.map Trivia.text

theorem flatten_texts (tok : Token) : tok.texts.flatten = tok.fullText := by
  rw [texts, List.flatten_append, List.flatten_cons, fullText, leadingText, trailingText,
    List.flatMap_def, List.flatMap_def, List.append_assoc]

theorem flatten_flatMap_texts (tokens : List Token) :
    (tokens.flatMap texts).flatten = tokens.flatMap fullText := by
  induction tokens with
  | nil => rfl
  | cons tok tokens ih =>
    rw [List.flatMap_cons, List.flatten_append, flatten_texts, ih, List.flatMap_cons]

theorem spans_lexeme (tok : Token) (offset : Nat) :
    Lexeme.spans ⟨tok.kind, tok.spanAt offset, tok.leading, tok.trailing⟩ =
      Span.row offset tok.texts := by
  have hoffset : offset + Text.size tok.leadingText - Text.size tok.leadingText = offset :=
    Nat.add_sub_cancel _ _
  simp only [Lexeme.spans, spanAt, Span.stop, Leaf.placeTrivia_row]
  rw [← leadingText, hoffset, texts, Span.row_append, Span.row, leadingText, List.flatMap_def]

theorem flatMap_spans_lexemes (offset : Nat) (tokens : List Token) :
    (lexemes offset tokens).flatMap Lexeme.spans = Span.row offset (tokens.flatMap texts) := by
  induction tokens generalizing offset with
  | nil => rfl
  | cons tok tokens ih =>
    rw [lexemes, List.flatMap_cons, ih, spans_lexeme, List.flatMap_cons, Span.row_append,
      flatten_texts, size]

theorem exists_of_mem_lexemes {offset : Nat} {tokens : List Token} {lexeme : Lexeme}
    (h : lexeme ∈ lexemes offset tokens) : ∃ tok ∈ tokens, ∃ start,
      lexeme = ⟨tok.kind, tok.spanAt start, tok.leading, tok.trailing⟩ := by
  induction tokens generalizing offset with
  | nil => exact absurd h List.not_mem_nil
  | cons tok tokens ih =>
    rcases List.mem_cons.mp h with rfl | h
    · exact ⟨tok, List.mem_cons_self, offset, rfl⟩
    · rcases ih h with ⟨found, hfound, start, hstart⟩
      exact ⟨found, List.mem_cons_of_mem tok hfound, start, hstart⟩

theorem exists_of_mem_tail_lexemes {offset : Nat} {tokens : List Token} {lexeme : Lexeme}
    (h : lexeme ∈ (lexemes offset tokens).tail) : ∃ tok ∈ tokens.tail, ∃ start,
      lexeme = ⟨tok.kind, tok.spanAt start, tok.leading, tok.trailing⟩ := by
  cases tokens with
  | nil => exact absurd h List.not_mem_nil
  | cons tok tokens => exact exists_of_mem_lexemes h

/-- A token as it is read: not empty, with no empty trivia, and with no line end behind it. The
    end of the text is the one token that may be empty. -/
structure IsRead (tok : Token) : Prop where
  text : tok.kind ≠ .endOfFile → tok.text ≠ []
  trivia : ∀ piece ∈ tok.leading ++ tok.trailing, piece.text ≠ []
  trailing : ∀ piece ∈ tok.trailing, piece.kind ≠ .newline

/-- Whether the leading trivia of a token is empty or begins with a line end. -/
def StartsLine (tok : Token) : Prop := ∀ piece ∈ tok.leading.head?, piece.kind = .newline

end Token

namespace Lexing

theorem isRead_readFrom {offset : Nat} {text : Text} {tok : Token}
    (h : tok ∈ (readFrom offset text).all) : tok.IsRead := by
  fun_induction readFrom offset text with
  -- The end of the text has trivia in front and none behind.
  | case1 offset text leading _ _ hrest =>
    rcases List.mem_singleton.mp h with rfl
    refine ⟨fun hkind => absurd rfl hkind, fun piece hpiece => ?_, fun piece hpiece => ?_⟩
    · rw [List.append_nil] at hpiece
      exact Trivia.text_ne_nil_of_mem hpiece
    · exact absurd hpiece List.not_mem_nil
  | case2 offset text leading start _ hrest lexeme size trailing stop errors more ih =>
    rw [all, List.cons_append] at h
    rcases List.mem_cons.mp h with rfl | h
    · refine ⟨fun _ => Lexer.taken_scan_ne_nil hrest, fun piece hpiece => ?_, fun piece hpiece =>
        Trivia.ne_newline_of_mem hpiece⟩
      rcases List.mem_append.mp hpiece with hpiece | hpiece
      · exact Trivia.text_ne_nil_of_mem hpiece
      · exact Trivia.text_ne_nil_of_mem hpiece
    · exact ih h

/-- Where no trailing trivia could go on, every token begins a line or has nothing before it. -/
theorem startsLine_readFrom {offset : Nat} {text : Text} (hbehind : Trivia.scan? false text = none)
    {tok : Token} (h : tok ∈ (readFrom offset text).all) : tok.StartsLine := by
  fun_induction readFrom offset text with
  | case1 offset text leading _ _ hrest =>
    rcases List.mem_singleton.mp h with rfl
    exact fun piece hpiece => Trivia.newline_of_mem_head? hbehind hpiece
  | case2 offset text leading start _ hrest lexeme size trailing stop errors more ih =>
    rw [all, List.cons_append] at h
    rcases List.mem_cons.mp h with rfl | h
    · exact fun piece hpiece => Trivia.newline_of_mem_head? hbehind hpiece
    · exact ih (Trivia.scan?_rest_scanAll false lexeme.2.rest) h

/-- Every token behind the first one begins a line or has nothing before it. -/
theorem startsLine_of_mem_tail {offset : Nat} {text : Text} {tok : Token}
    (h : tok ∈ (readFrom offset text).all.tail) : tok.StartsLine := by
  fun_induction readFrom offset text with
  | case1 => exact absurd h List.not_mem_nil
  | case2 offset text leading start _ hrest lexeme size trailing stop errors more _ =>
    rw [all, List.cons_append, List.tail_cons] at h
    exact startsLine_readFrom (Trivia.scan?_rest_scanAll false lexeme.2.rest) h

/-- The tokens of any text share it out. Their pieces follow each other without a gap from the
    beginning to the end, a character begins where a piece does, only the token for the end is
    empty, no line end stands behind a token, and in front of a token other than the first there
    is nothing or a line end first. -/
theorem partition_lexemes (text : Text) : Lexeme.Partition text (Lexing.of text).lexemes := by
  have hspans : (Lexing.of text).lexemes.flatMap Lexeme.spans =
      Span.row 0 ((Lexing.of text).all.flatMap Token.texts) :=
    Token.flatMap_spans_lexemes 0 (Lexing.of text).all
  have htexts : ((Lexing.of text).all.flatMap Token.texts).flatten = text :=
    (Token.flatten_flatMap_texts _).trans (fullText_all text)
  -- The end of the text last, the spans, their borders, and what the trivia are.
  refine ⟨?_, ?_, ?_, ?_, ?_, ?_⟩
  · refine ⟨Token.lexemes 0 (Lexing.of text).tokens, _, Token.lexemes_append _ _ _,
      kind_last text, fun lexeme hlexeme => ?_⟩
    rcases Token.exists_of_mem_lexemes hlexeme with ⟨tok, htok, start, rfl⟩
    have hkind := Kind.ne_endOfFile_of_isLexeme (isLexeme_of_mem htok)
    have hread : tok.IsRead := isRead_readFrom (List.mem_append_left _ htok)
    exact ⟨hkind, Text.size_pos (hread.text hkind)⟩
  · have htile := Span.tile_row 0 ((Lexing.of text).all.flatMap Token.texts)
    rwa [Nat.zero_add, htexts, ← hspans] at htile
  · intro span hspan
    rw [hspans] at hspan
    have hboundary := @Span.isBoundary_of_mem_row [] _ _ hspan
    rwa [List.nil_append, htexts] at hboundary
  · intro lexeme hlexeme
    rcases Token.exists_of_mem_lexemes hlexeme with ⟨tok, htok, start, rfl⟩
    exact (isRead_readFrom htok).trivia
  · intro lexeme hlexeme
    rcases Token.exists_of_mem_lexemes hlexeme with ⟨tok, htok, start, rfl⟩
    exact (isRead_readFrom htok).trailing
  · intro lexeme hlexeme
    rcases Token.exists_of_mem_tail_lexemes hlexeme with ⟨tok, htok, start, rfl⟩
    exact startsLine_of_mem_tail htok

end Lexing

end PhpAssist

import PhpAssist.Token
import PhpAssist.Token.Heredoc
import PhpAssist.Token.Number
import PhpAssist.Token.Quoted
import PhpAssist.Token.Trivia

/-!
# Reading tokens

A text is read from left to right: trivia, a token, trivia up to the end of the line, and so on
until the text ends. The end is a token too; it owns the trivia that no other token follows.

Every character belongs to some token or piece of trivia. A character that starts nothing is a
token of its own, and a string, heredoc or comment whose end is missing runs to the end of the
text and is reported.

## Main definitions

* `Lexer.punctuation`: The spellings of operators and punctuation, longer ones first.
* `Lexer.scan`: Takes one token.
* `Lexing`: The tokens of a text, its end, and the errors found.
* `Lexing.of`: Reads a text.

## Theorems

* `Lexer.splits_scan`, `Lexer.taken_scan_ne_nil`: A token splits the text and is not empty.
-/

namespace PhpAssist

namespace Lexer

/-- The spellings of operators and punctuation. A text is matched against them in this order, so
    every spelling comes before its own beginnings. -/
def punctuation : List (String × Kind) :=
  [("<<=", .assignOp), (">>=", .assignOp), ("**=", .assignOp), ("??=", .assignOp),
   ("===", .operator), ("!==", .operator), ("<=>", .operator), ("?->", .arrow),
   ("+=", .assignOp), ("-=", .assignOp), ("*=", .assignOp), ("/=", .assignOp),
   (".=", .assignOp), ("%=", .assignOp), ("&=", .assignOp), ("|=", .assignOp),
   ("^=", .assignOp), ("->", .arrow), ("=>", .fatArrow), ("::", .doubleColon),
   ("**", .operator), ("&&", .operator), ("||", .operator), ("??", .operator),
   ("==", .operator), ("!=", .operator), ("<>", .operator), ("<=", .operator),
   (">=", .operator), ("++", .operator), ("--", .operator), ("<<", .operator),
   (">>", .operator), ("(", .leftParen), (")", .rightParen), ("[", .leftBracket),
   ("]", .rightBracket), ("\x7b", .leftBrace), ("\x7d", .rightBrace), (";", .semicolon),
   (",", .comma), ("?", .question), (":", .colon), (".", .dot), ("=", .equals),
   ("+", .operator), ("-", .operator), ("*", .operator), ("/", .operator), ("%", .operator),
   ("!", .operator), ("<", .operator), (">", .operator), ("&", .operator), ("|", .operator),
   ("^", .operator), ("~", .operator), ("@", .operator)]

/-- The first spelling of a table that starts a text. -/
def spelling? : List (String × Kind) → Text → Option (Kind × Cut)
  | [], _ => none
  | (word, kind) :: more, text =>
    match Text.after? word.toList text with
    | some rest => some (kind, ⟨word.toList, rest, true⟩)
    | none => spelling? more text

/-- Takes a name after its first character. A backslash joins two names into one. -/
def nameTail : Text → Cut
  | [] => ⟨[], [], true⟩
  | c :: rest =>
    if Text.isIdentContinue c then (nameTail rest).cons c
    else if c = '\\' ∧ rest.head?.any Text.isIdentStart then (nameTail rest).cons c
    else ⟨[], c :: rest, true⟩

/-- The tag that opens a file, in any mixture of case. -/
def openTag : Text := "<?php".toList

/-- Whether a text starts with the opening tag. -/
def startsWithOpenTag (text : Text) : Bool :=
  Text.lower (text.take openTag.length) == openTag

/-- Takes an operator, a piece of punctuation, or a single character that means nothing. -/
def scanPunctuation (text : Text) : Kind × Cut :=
  match spelling? punctuation text with
  | some found => found
  | none => (.unknown, ⟨text.take 1, text.drop 1, true⟩)

/-- Takes a heredoc, or the shift operator that its first two characters are otherwise. -/
def scanHeredoc (text : Text) : Kind × Cut :=
  match Heredoc.scan? text with
  | some (isNowdoc, cut) => (if isNowdoc then .nowdocString else .heredocString, cut)
  | none => (.operator, ⟨text.take 2, text.drop 2, true⟩)

/-- Takes a name and tells whether it is reserved. -/
def scanName (first : Char) (rest : Text) : Kind × Cut :=
  let cut := (nameTail rest).cons first
  ((Kind.ofKeyword? cut.taken).getD .name, cut)

/-- Takes a number, which is a float when it has a fraction or an exponent. -/
def scanNumber (text : Text) : Kind × Cut :=
  (if (Number.scan text).1 then .floatNumber else .intNumber, (Number.scan text).2)

/-- Takes one token of a text whose first character is `c`. -/
def scanFrom (c : Char) (rest : Text) : Kind × Cut :=
  if startsWithOpenTag (c :: rest) then
    (.openTag, ⟨(c :: rest).take openTag.length, (c :: rest).drop openTag.length, true⟩)
  else if (Text.after? ['<', '<', '<'] (c :: rest)).isSome then scanHeredoc (c :: rest)
  else if c = '$' ∧ rest.head?.any Text.isIdentStart then
    (.variableName, (Cut.run Text.isIdentContinue rest).cons c)
  else if c = '\'' then (.singleQuotedString, Quoted.scan (c :: rest))
  else if c = '"' then (.doubleQuotedString, Quoted.scan (c :: rest))
  else if c = '.' ∧ rest.head?.any Char.isDigit then
    (.floatNumber, Number.scanFraction (c :: rest))
  else if c.isDigit then scanNumber (c :: rest)
  else if Text.isIdentStart c ∨ (c = '\\' ∧ rest.head?.any Text.isIdentStart) then
    scanName c rest
  else scanPunctuation (c :: rest)

/-- Takes one token. A text that has ended gives its end. -/
def scan : Text → Kind × Cut
  | [] => (.endOfFile, ⟨[], [], true⟩)
  | c :: rest => scanFrom c rest

/-- What is said about a token of a kind whose end is missing. -/
def unclosedMessage : Kind → String
  | .blockComment => "unterminated block comment"
  | .heredocString | .nowdocString => "unterminated heredoc"
  | _ => "unterminated string literal"

theorem splits_spelling? {table : List (String × Kind)} {text : Text} {kind : Kind} {cut : Cut}
    (h : spelling? table text = some (kind, cut)) : cut.Splits text := by
  induction table with
  | nil => exact absurd h (by simp only [spelling?, reduceCtorEq, not_false_eq_true])
  | cons entry more ih =>
    rw [spelling?] at h
    split at h
    · rename_i rest hrest
      injection h with h
      injection h with _ h
      rw [← h]
      exact (Text.after?_eq_some hrest).symm
    · exact ih h

/-- No spelling of the table is empty, so matching one takes something. -/
theorem taken_spelling?_ne_nil {table : List (String × Kind)} {text : Text} {kind : Kind}
    {cut : Cut} (htable : ∀ entry ∈ table, entry.1.toList ≠ [])
    (h : spelling? table text = some (kind, cut)) : cut.taken ≠ [] := by
  induction table with
  | nil => exact absurd h (by simp only [spelling?, reduceCtorEq, not_false_eq_true])
  | cons entry more ih =>
    rw [spelling?] at h
    split at h
    · injection h with h
      injection h with _ h
      rw [← h]
      exact htable entry List.mem_cons_self
    · exact ih (fun e he => htable e (List.mem_cons_of_mem entry he)) h

theorem punctuation_ne_nil : ∀ entry ∈ punctuation, entry.1.toList ≠ [] := by
  decide

theorem splits_nameTail (text : Text) : (nameTail text).Splits text := by
  fun_induction nameTail text with
  | case1 => rfl
  | case2 c rest _ ih => exact ih.cons c
  | case3 c rest _ _ ih => exact ih.cons c
  | case4 => rfl

theorem splits_scanPunctuation (text : Text) : (scanPunctuation text).2.Splits text := by
  rw [scanPunctuation]
  split
  · rename_i found hfound
    exact splits_spelling? hfound
  · exact List.take_append_drop 1 text

theorem taken_scanPunctuation_ne_nil {text : Text} (h : text ≠ []) :
    (scanPunctuation text).2.taken ≠ [] := by
  rw [scanPunctuation]
  split
  · rename_i found hfound
    exact taken_spelling?_ne_nil punctuation_ne_nil hfound
  · cases text with
    | nil => exact absurd rfl h
    | cons c rest => simp only [List.take_succ_cons, ne_eq, reduceCtorEq, not_false_eq_true]

theorem splits_scanHeredoc (text : Text) : (scanHeredoc text).2.Splits text := by
  rw [scanHeredoc]
  split
  · rename_i isNowdoc cut hcut
    exact Heredoc.splits_scan? hcut
  · exact List.take_append_drop 2 text

theorem taken_scanHeredoc_ne_nil {text : Text} (h : text ≠ []) :
    (scanHeredoc text).2.taken ≠ [] := by
  rw [scanHeredoc]
  split
  · rename_i isNowdoc cut hcut
    exact Heredoc.taken_scan?_ne_nil hcut
  · cases text with
    | nil => exact absurd rfl h
    | cons c rest => simp only [List.take_succ_cons, ne_eq, reduceCtorEq, not_false_eq_true]

theorem splits_scanFrom (c : Char) (rest : Text) : (scanFrom c rest).2.Splits (c :: rest) := by
  fun_cases scanFrom c rest with
  | case1 => exact List.take_append_drop _ _
  | case2 => exact splits_scanHeredoc _
  | case3 => exact (Cut.splits_run Text.isIdentContinue _).cons _
  | case4 => exact Quoted.splits_scan _
  | case5 => exact Quoted.splits_scan _
  | case6 => exact Number.splits_scanFraction _
  | case7 => exact Number.splits_scan _
  | case8 => exact (splits_nameTail _).cons _
  | case9 => exact splits_scanPunctuation _

theorem taken_scanFrom_ne_nil (c : Char) (rest : Text) : (scanFrom c rest).2.taken ≠ [] := by
  fun_cases scanFrom c rest with
  | case1 =>
    simp only [ne_eq, List.take_eq_nil_iff, reduceCtorEq, or_false]
    decide
  | case2 => exact taken_scanHeredoc_ne_nil (List.cons_ne_nil c rest)
  | case3 => simp only [Cut.cons, ne_eq, reduceCtorEq, not_false_eq_true]
  | case4 => simp only [Quoted.scan, Cut.cons, ne_eq, reduceCtorEq, not_false_eq_true]
  | case5 => simp only [Quoted.scan, Cut.cons, ne_eq, reduceCtorEq, not_false_eq_true]
  | case6 => simp only [Number.scanFraction, Cut.cons, ne_eq, reduceCtorEq, not_false_eq_true]
  | case7 => exact Number.taken_scan_ne_nil (List.cons_ne_nil c rest)
  | case8 => simp only [scanName, Cut.cons, ne_eq, reduceCtorEq, not_false_eq_true]
  | case9 => exact taken_scanPunctuation_ne_nil (List.cons_ne_nil c rest)

/-- A token and what it leaves are the text. -/
theorem splits_scan (text : Text) : (scan text).2.Splits text := by
  cases text with
  | nil => rfl
  | cons c rest => exact splits_scanFrom c rest

/-- Reading a token of a text that has not ended takes at least one character. -/
theorem taken_scan_ne_nil {text : Text} (h : text ≠ []) : (scan text).2.taken ≠ [] := by
  cases text with
  | nil => exact absurd rfl h
  | cons c rest => exact taken_scanFrom_ne_nil c rest

end Lexer

/-- A text read to its end: the tokens, the token that stands for the end and owns the trivia
    before it, and the errors in the order in which they were found. -/
structure Lexing where
  tokens : List Token
  last : Token
  errors : List Diagnostic

namespace Lexing

/-- The error about trivia that ends at `stop`, when its last comment is not closed. -/
def triviaErrors (trivia : Trivia.Run) (stop : Nat) : List Diagnostic :=
  if trivia.closed then []
  else
    let size := (trivia.pieces.getLast?.map fun piece => Text.size piece.text).getD 0
    [⟨Lexer.unclosedMessage .blockComment, stop - size, size⟩]

/-- Reads a text that starts at `offset` of the whole. -/
def readFrom (offset : Nat) (text : Text) : Lexing :=
  let leading := Trivia.scanAll true text
  let start := offset + leading.size
  let leadingErrors := triviaErrors leading start
  -- Trivia before the end of the text has no other token to belong to.
  if h : leading.rest = [] then
    ⟨[], ⟨leading.pieces, .endOfFile, [], []⟩, leadingErrors⟩
  else
    let lexeme := Lexer.scan leading.rest
    let size := lexeme.2.taken.size
    let trailing := Trivia.scanAll false lexeme.2.rest
    let stop := start + size + trailing.size
    -- A token that is not closed runs to the end, so its error covers all of it.
    let errors := if lexeme.2.closed then [] else [⟨Lexer.unclosedMessage lexeme.1, start, size⟩]
    let more := Lexing.readFrom stop trailing.rest
    ⟨⟨leading.pieces, lexeme.1, lexeme.2.taken, trailing.pieces⟩ :: more.tokens, more.last,
      leadingErrors ++ errors ++ triviaErrors trailing stop ++ more.errors⟩
termination_by text.length
decreasing_by
  have hscan := (Lexer.splits_scan (Trivia.scanAll true text).rest).rest_length_lt
    (Lexer.taken_scan_ne_nil h)
  have hleading := Trivia.rest_scanAll_length_le true text
  have htrailing := Trivia.rest_scanAll_length_le false
    (Lexer.scan (Trivia.scanAll true text).rest).2.rest
  omega

/-- Reads a text. -/
def of (text : Text) : Lexing := Lexing.readFrom 0 text

/-- All tokens of a text, the one for its end included. -/
def all (lexing : Lexing) : List Token := lexing.tokens ++ [lexing.last]

end Lexing

end PhpAssist

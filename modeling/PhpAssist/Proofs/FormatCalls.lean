import PhpAssist.Format.Call
import PhpAssist.Proofs.Literals
import PhpAssist.Proofs.Reread

/-!
# Format calls are read back

The format call of a chain is written as a text and read back from it. The format is a string in
double quotes that ends at its own quote, since every quote in it is escaped and no brace in it
opens code; each operand is an expression that can be put between commas. What is read back is
therefore the call that was meant: its format is the one that was written, and its operands are
those of the chain, read again.

## Main definitions

* `Shape.formatCall`: The shape of a format call.
* `Token.argument`: The tokens of an operand with the comma in front of it.

## Theorems

* `Format.close_parts`: A format ends at its own quote.
* `Lexed.operands`: Operands between commas.
* `Grammar.derives_formatCall`: A format call is a statement.
* `FormatCall.parse_callText`: What is read back.
-/

namespace PhpAssist

open Text

/-! ## The format -/

namespace Format

open Format.Part

/-- What is written of a character closes nothing and opens nothing. -/
theorem Written.close {c : Char} {double format heredoc rest : Text}
    (h : Written c double format heredoc) (hrest : rest.head? ≠ some '$') :
    Quoted.close [.quote '"'] (double ++ rest) =
      (Quoted.close [.quote '"'] rest).prepend double := by
  have hplain {d : Char} {text : Text} (hslash : d ≠ '\\') (hquote : d ≠ '"')
      (htext : d = '{' → text.head? ≠ some '$') :
      Quoted.close [.quote '"'] (d :: text) = (Quoted.close [.quote '"'] text).cons d := by
    rw [Quoted.close_quote hslash, if_neg fun h => htext h.1 h.2.2, if_neg hquote]
  cases h with
  | escaped _ | quote =>
    rw [List.cons_append, List.singleton_append, Quoted.close]
    rfl
  | percent =>
    rw [List.cons_append, List.singleton_append,
      hplain (by decide) (by decide) fun h => absurd h (by decide),
      hplain (by decide) (by decide) fun h => absurd h (by decide)]
    rfl
  | plain hslash _ hquote _ => exact hplain hslash hquote fun _ => hrest

theorem head_parts (parts : List Part) (after : Text) :
    (parts.flatMap double ++ '"' :: after).head? ≠ some '$' := by
  induction parts using byCharacter with
  | nil => exact fun h => absurd (Option.some.inj h) (by decide)
  | char c said parts _ =>
    rw [double_cons, List.append_assoc]
    exact ((written c).head _).1
  | done parts ih => exact ih
  | operand parts _ => exact fun h => absurd (Option.some.inj h) (by decide)

/-- A format ends at its own quote. -/
theorem close_parts (parts : List Part) (after : Text) :
    Quoted.close [.quote '"'] (parts.flatMap double ++ '"' :: after) =
      ⟨parts.flatMap double ++ ['"'], after, true⟩ := by
  induction parts using byCharacter with
  | nil =>
    rw [List.flatMap_nil, List.nil_append, Quoted.close_quote (by decide),
      if_neg fun h => absurd h.1 (by decide), if_pos rfl, Quoted.close]
    rfl
  | char c said parts ih =>
    rw [double_cons, List.append_assoc, (written c).close (head_parts _ after), ih, Cut.prepend,
      List.append_assoc]
  | done parts ih => exact ih
  | operand parts ih =>
    rw [List.flatMap_cons, double, List.append_assoc, List.cons_append, List.singleton_append,
      Quoted.close_quote (by decide), if_neg fun h => absurd h.1 (by decide), if_neg (by decide),
      Quoted.close_quote (by decide), if_neg fun h => absurd h.1 (by decide), if_neg (by decide),
      ih]
    rfl

end Format

/-! ## The tokens -/

/-- The tokens of an operand with the comma in front of it. -/
def Token.argument (operand : Tree) : List Token :=
  ⟨[], .comma, [','], [⟨.whitespace, [' ']⟩]⟩ :: Token.bare operand.tokens

/-- The text of operands, each with a comma in front of it. -/
def Converter.operandsText (operands : List Tree) : Text :=
  operands.flatMap fun operand => [',', ' '] ++ operand.trimmed

namespace Lexed

variable {tokens : List Token} {text : Text}

/-- A text of operands goes on with a comma or a parenthesis. -/
theorem head_operands (operands : List Tree) (text : Text) :
    ∃ c rest, Converter.operandsText operands ++ ')' :: text = c :: rest ∧ (c = ',' ∨ c = ')') := by
  rcases operands with _ | ⟨operand, operands⟩
  · exact ⟨')', text, rfl, .inr rfl⟩
  · exact ⟨',', _, rfl, .inl rfl⟩

/-- Operands between commas in front of a parenthesis. -/
theorem operands (h : Lexed tokens (')' :: text)) {operands : List Tree}
    (hexcerpt : ∀ operand ∈ operands, operand.Excerpt) :
    Lexed (operands.flatMap Token.argument ++ tokens)
      (Converter.operandsText operands ++ ')' :: text) := by
  induction operands with
  | nil => exact h
  | cons operand operands ih =>
    have hrest := ih fun it hit => hexcerpt it (List.mem_cons_of_mem _ hit)
    -- Whatever comes behind an operand ends its last token.
    have hends : Follows [] (Converter.operandsText operands ++ ')' :: text) ∧
        Heredoc.Breaks (Converter.operandsText operands ++ ')' :: text) := by
      rcases head_operands operands text with ⟨c, rest, heq, hc⟩
      rw [heq]
      rcases hc with rfl | rfl
      · exact ⟨follows_of_calm rfl, Heredoc.breaks_of_head rfl rfl⟩
      · exact ⟨follows_of_calm rfl, Heredoc.breaks_of_head rfl rfl⟩
    have hinner := hrest.excerpt (hexcerpt operand List.mem_cons_self) hrest.spelled.tight hends.1
      hends.2
    have hcomma : Lexed (⟨[], .comma, [','], [⟨.whitespace, [' ']⟩]⟩ :: _)
        ([','] ++ ' ' :: (operand.trimmed ++ _)) :=
      hinner.word hinner.spelled.spaced (List.cons_ne_nil _ _) rfl rfl
    have htext : Converter.operandsText (operand :: operands) ++ ')' :: text =
        [','] ++ ' ' :: (operand.trimmed ++ (Converter.operandsText operands ++ ')' :: text)) := by
      simp only [Converter.operandsText, List.flatMap_cons, List.append_assoc, List.cons_append,
        List.nil_append]
    rw [htext, List.flatMap_cons, Token.argument, Token.bare, List.append_assoc]
    exact hcomma

end Lexed

/-- The tokens of a format call whose quoted format and operands are given. -/
def Token.formatCall (quoted : Text) (operands : List Tree) : List Token :=
  ⟨[], .name, "sprintf".toList, []⟩ :: ⟨[], .leftParen, ['('], []⟩ ::
    ⟨[], .doubleQuotedString, quoted, []⟩ :: (operands.flatMap Token.argument ++
      [⟨[], .rightParen, [')'], []⟩, ⟨[], .semicolon, [';'], []⟩])

/-- The text of a format call whose quoted format and operands are given. -/
def Converter.callText (quoted : Text) (operands : List Tree) : Text :=
  "sprintf(".toList ++ (quoted ++ (Converter.operandsText operands ++ [')', ';']))

/-- A format call is read as its tokens. -/
theorem Lexed.formatCall {inner : Text} {operands : List Tree}
    (hclose : ∀ after, Quoted.close [.quote '"'] (inner ++ after) = ⟨inner, after, true⟩)
    (hexcerpt : ∀ operand ∈ operands, operand.Excerpt) :
    Lexed (Token.formatCall ('"' :: inner) operands)
      (Converter.callText ('"' :: inner) operands) := by
  -- The text is read from its end to its beginning.
  have hstop : Lexed [⟨[], .semicolon, [';'], []⟩] [';'] :=
    Lexed.nil.word (.nil rfl) (List.cons_ne_nil _ _) rfl rfl
  have hclosing : Lexed [⟨[], .rightParen, [')'], []⟩, ⟨[], .semicolon, [';'], []⟩]
      ([')'] ++ [';']) :=
    hstop.word hstop.spelled.tight (List.cons_ne_nil _ _) rfl rfl
  have hoperands := hclosing.operands hexcerpt
  have hscan : Lexer.scan ('"' :: inner ++ (Converter.operandsText operands ++ [')', ';'])) =
      (.doubleQuotedString,
        ⟨'"' :: inner, Converter.operandsText operands ++ [')', ';'], true⟩) := by
    have hquoted : Lexer.scan ('"' :: (inner ++ (Converter.operandsText operands ++ [')', ';']))) =
        (.doubleQuotedString, (Quoted.close [.quote '"']
          (inner ++ (Converter.operandsText operands ++ [')', ';']))).cons '"') := rfl
    rw [List.cons_append, hquoted, hclose]
    rfl
  have hformat := hoperands.word hoperands.spelled.tight (List.cons_ne_nil _ _) rfl hscan
  have hopening : Lexed (⟨[], .leftParen, ['('], []⟩ :: _) (['('] ++ _) :=
    hformat.word hformat.spelled.tight (List.cons_ne_nil _ _) rfl rfl
  have hname : Lexed (⟨[], .name, "sprintf".toList, []⟩ :: _) ("sprintf".toList ++ _) :=
    hopening.word hopening.spelled.tight (by decide) rfl rfl
  exact hname

/-! ## The shape -/

namespace Shape

/-- Operands with a comma in front of each. -/
def operands (operands : List Shape) : List Shape :=
  operands.flatMap fun operand => [.word ⟨.comma, [',']⟩, operand]

/-- A statement that calls `sprintf` with a format in quotes and operands. -/
def formatCall (quoted : Text) (row : List Shape) : Shape :=
  .node .exprStmt [
    .node .callExpr [.node .nameRef [.word ⟨.name, "sprintf".toList⟩],
      .node .argList (.word ⟨.leftParen, ['(']⟩ ::
        ((.node .stringLiteral [.word ⟨.doubleQuotedString, quoted⟩] :: operands row) ++
          [.word ⟨.rightParen, [')']⟩]))],
    .word ⟨.semicolon, [';']⟩]

end Shape

namespace Grammar

/-- No expression goes on with a comma. -/
theorem Inert.comma {text : Text} : Inert (some ⟨.comma, text⟩) := by
  intro word hword
  rw [← Option.some.inj hword]
  exact ⟨rfl, fun _ _ => rfl⟩

/-- Expressions between commas are arguments. -/
theorem derives_operands {first : Shape} {row : List Shape} {closing : Word}
    (hfirst : Standalone first) (hrow : ∀ operand ∈ row, Standalone operand)
    (hclosing : closing.kind = .rightParen) :
    Derives (.items .argument) (some closing) (first :: Shape.operands row) := by
  induction row generalizing first with
  | nil => exact .last (.argument (hfirst _ (.of_kind hclosing (.inr rfl)))) hclosing
  | cons operand row ih =>
    exact .more (.argument (hfirst _ .comma)) rfl
      (ih (hrow operand List.mem_cons_self) fun it hit => hrow it (List.mem_cons_of_mem _ hit))

/-- A format call is a statement. -/
theorem derives_formatCall (quoted : Text) {row : List Shape}
    (hrow : ∀ operand ∈ row, Standalone operand) :
    DerivesStmt .stmts Option.none [Shape.formatCall quoted row] := by
  have hformat : Standalone (.node .stringLiteral [.word ⟨.doubleQuotedString, quoted⟩]) :=
    (@Derives.token Option.none _ _ rfl).standalone rfl
  have hcall : Standalone (.node .callExpr [.node .nameRef [.word ⟨.name, "sprintf".toList⟩],
      .node .argList (.word ⟨.leftParen, ['(']⟩ ::
        ((.node .stringLiteral [.word ⟨.doubleQuotedString, quoted⟩] :: Shape.operands row) ++
          [Shape.word ⟨.rightParen, [')']⟩]))]) :=
    (@Derives.call Option.none _ _ _ _ (.access (.token rfl)) rfl rfl
      (derives_operands hformat hrow rfl)).standalone rfl
  exact .cons (.expr rfl (hcall _ (.of_kind rfl (.inl rfl)))) .nil

end Grammar

/-! ## Reading it back -/

/-- The words of operands with their commas. -/
theorem Tree.words_operands (operands : List Tree) :
    Shape.wordsOf (Shape.operands (operands.map shape)) =
      (operands.flatMap Token.argument).map Token.word := by
  induction operands with
  | nil => rfl
  | cons operand operands ih =>
    have hrow : Shape.wordsOf (Shape.operands ((operand :: operands).map shape)) =
        ⟨.comma, [',']⟩ ::
          (operand.shape.words ++ Shape.wordsOf (Shape.operands (operands.map shape))) := rfl
    rw [hrow, ih, List.flatMap_cons, List.map_append, Token.argument, List.map_cons, Token.bare,
      Token.word_startWith, Token.word_endWith, words_shape, List.cons_append]
    rfl

/-- The words of a format call. -/
theorem Tree.words_formatCall (quoted : Text) (operands : List Tree) :
    Shape.wordsOf [Shape.formatCall quoted (operands.map shape)] =
      (Token.formatCall quoted operands).map Token.word := by
  simp only [Shape.formatCall, Shape.wordsOf_cons, Shape.words_node, Shape.words_word,
    Shape.wordsOf_append, Shape.wordsOf_nil, words_operands, Token.formatCall, List.map_cons,
    List.map_append, List.append_assoc, List.cons_append, List.nil_append, List.append_nil]
  rfl

/-- The nodes among arguments that have the tokens of operands are the operands, read again. -/
theorem Tree.reread_operands {operands row : List Tree} {closing : Word} {last : List Token}
    (hstandalone : ∀ operand ∈ operands, Grammar.Standalone operand.shape)
    (hshapes : shapesOf row = Shape.operands (operands.map shape) ++ [Shape.word closing])
    (htokens : tokensOf row = operands.flatMap Token.argument ++ last) :
    List.Forall₂ Reread operands (row.filter isNode) := by
  induction operands generalizing row with
  | nil =>
    rcases token_of_shapesOf hshapes with ⟨tok, rest, rfl, _, hrest⟩
    rw [shapesOf_eq_nil hrest]
    exact .nil
  | cons operand operands ih =>
    rcases (hstandalone operand List.mem_cons_self).exists_node with ⟨kind, below, hshape⟩
    -- The comma, and behind it as many tokens as the operand has.
    rcases token_of_shapesOf hshapes with ⟨comma, rest, rfl, _, hrest⟩
    rw [hshape] at hrest
    rcases node_of_shapesOf hrest with ⟨children, rest, rfl, hchildren, hrest⟩
    have hsame : (Tree.node kind children).shape = operand.shape := by
      rw [Tree.shape, hchildren, hshape]
    have hlength : (Tree.node kind children).tokens.length =
        (Token.bare operand.tokens).length := by
      rw [Token.length_bare]
      exact length_tokens_of_shape hsame
    have hparts : (Tree.node kind children).tokens ++ tokensOf rest =
        Token.bare operand.tokens ++ (operands.flatMap Token.argument ++ last) := by
      rw [List.flatMap_cons, Token.argument, List.cons_append, List.cons_append,
        List.append_assoc] at htokens
      exact (List.cons.inj htokens).2
    rcases List.append_inj hparts hlength with ⟨hoperand, hmore⟩
    exact .cons ⟨hsame, hoperand⟩
      (ih (fun it hit => hstandalone it (List.mem_cons_of_mem _ hit)) hrest hmore)

namespace FormatCall

/-- A format call is read back with its format and its operands. -/
theorem parse_callText {inner : Text} {operands : List Tree}
    (hclose : ∀ after, Quoted.close [.quote '"'] (inner ++ after) = ⟨inner, after, true⟩)
    (hexcerpt : ∀ operand ∈ operands, operand.Excerpt)
    (hstandalone : ∀ operand ∈ operands, Grammar.Standalone operand.shape) :
    ∃ call agains, parse (Converter.callText ('"' :: inner) operands) =
        .ok ⟨call, '"' :: inner, agains⟩ ∧ List.Forall₂ Tree.Reread operands agains := by
  have hlexed := Lexed.formatCall hclose hexcerpt
  have hspells := hlexed.tokens_eq.2
  rw [← Tree.words_formatCall] at hspells
  have hshapes : ∀ shape ∈ operands.map Tree.shape, Grammar.Standalone shape := by
    intro shape hshape
    rcases List.mem_map.mp hshape with ⟨operand, hoperand, rfl⟩
    exact hstandalone operand hoperand
  rcases Parse.clean_fragment hspells (Grammar.derives_formatCall ('"' :: inner) hshapes) with
    ⟨parse, hparse, hclean⟩
  rcases hclean.root with ⟨trees, hroot, htokens, hshapes⟩
  rw [hlexed.tokens_eq.1] at htokens
  -- The statement, the call in it, and the list of its arguments.
  rcases Tree.node_of_shapesOf hshapes with ⟨inStmt, rest, rfl, hstmt, hrest⟩
  rw [Tree.shapesOf_eq_nil hrest] at hroot htokens
  rcases Tree.node_of_shapesOf hstmt with ⟨inCall, rest, rfl, hcall, hrest⟩
  rcases Tree.token_of_shapesOf hrest with ⟨stop, rest, rfl, _, hrest⟩
  rw [Tree.shapesOf_eq_nil hrest] at hroot htokens
  rcases Tree.node_of_shapesOf hcall with ⟨inCallee, rest, rfl, hcallee, hrest⟩
  rcases Tree.token_of_shapesOf hcallee with ⟨name, rest', rfl, _, hrest'⟩
  rw [Tree.shapesOf_eq_nil hrest'] at hroot htokens
  rcases Tree.node_of_shapesOf hrest with ⟨inArgs, rest, rfl, hargs, hrest⟩
  rw [Tree.shapesOf_eq_nil hrest] at hroot htokens
  rcases Tree.token_of_shapesOf hargs with ⟨opening, rest, rfl, _, hrest⟩
  rcases Tree.node_of_shapesOf hrest with ⟨inFormat, row, rfl, hformat, hoperands⟩
  rcases Tree.token_of_shapesOf hformat with ⟨quoted, rest', rfl, _, hrest'⟩
  rw [Tree.shapesOf_eq_nil hrest'] at hroot htokens
  simp only [Tree.tokensOf, Tree.tokens, Token.formatCall, List.append_nil, List.cons_append,
    List.nil_append, List.cons.injEq] at htokens
  rcases htokens with ⟨_, _, rfl, htokens⟩
  -- What is left of the tokens between the format and the closing parenthesis is the operands'.
  have hlast : operands.flatMap Token.argument ++
      [⟨[], .rightParen, [')'], []⟩, ⟨[], .semicolon, [';'], []⟩] =
        (operands.flatMap Token.argument ++ [⟨[], .rightParen, [')'], []⟩]) ++
          [⟨[], .semicolon, [';'], []⟩] := by
    rw [List.append_assoc]
    rfl
  rw [hlast] at htokens
  have hreread := Tree.reread_operands hstandalone hoperands
    (List.append_inj' htokens rfl).1
  have htrimmed : (Tree.node .stringLiteral
      [.token ⟨[], .doubleQuotedString, '"' :: inner, []⟩]).trimmed = '"' :: inner :=
    Tree.trimmed_token rfl
  have hgenerated : parseGenerated (Converter.callText ('"' :: inner) operands) = .ok parse := by
    rw [parseGenerated, hparse]
    rfl
  have hcall : ∃ call, call? parse.root = some call ∧
      (call.argList?.map fun args => args.tree.childNodes) =
        some (.node .stringLiteral [.token ⟨[], .doubleQuotedString, '"' :: inner, []⟩] ::
          row.filter Tree.isNode) := by
    rw [hroot]
    exact ⟨_, rfl, rfl⟩
  rcases hcall with ⟨call, hcall, hargs⟩
  refine ⟨call, row.filter Tree.isNode, ?_, hreread⟩
  rw [FormatCall.parse, hgenerated]
  dsimp only [bind, Except.bind]
  rw [hcall]
  dsimp only
  rw [hargs, Option.getD_some]
  dsimp only
  rw [htrimmed]
  rfl

end FormatCall

end PhpAssist

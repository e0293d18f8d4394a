import PhpAssist.Assist
import PhpAssist.Proofs.Frames
import PhpAssist.Proofs.HeredocSeams
import PhpAssist.Proofs.Leaves
import PhpAssist.Proofs.SingleStatements

/-!
# Hoists as statements

A hoist is the text of an operand with a semicolon behind it, and with a variable and an equals sign
in front of it unless the operand assigns a variable itself. It is read as one statement in front of
any other code.

## Main definitions

* `Converter.ReadsCalls`: A converter that reads the calls it gives from a text.
* `Hoist.IsStmt`: A hoist that is read as one statement.

## Theorems

* `Parse.Clean.argument`: The arguments of a text without diagnostics are expressions.
* `FormatCall.operands_of_parse`: The operands of a call that was read are expressions.
-/

namespace PhpAssist

open Text

/-! ## Operands of a call that was read -/

namespace Grammar

/-- Between the commas of a list of arguments there are expressions. -/
theorem Derives.standalone_argument {symbol : Symbol} {look : Option Word} {row : List Shape}
    (h : Derives symbol look row) (hsymbol : symbol = .items .argument) :
    ∀ shape ∈ row, Standalone shape ∨ ∃ comma, shape = .word comma := by
  have hargument {look : Option Word} {sort : ListSort} {item : Shape}
      (h : Derives (.item sort) look [item]) (hsort : sort = .argument) : Standalone item := by
    subst hsort
    cases h with
    | argument hvalue => exact hvalue.standalone rfl
  -- By induction on the list: an argument is an expression, and between two of them is a comma.
  induction h with
  | none => exact fun shape hshape => absurd hshape List.not_mem_nil
  | last hitem _ =>
    intro shape hshape
    rw [List.mem_singleton.mp hshape]
    exact .inl (hargument hitem (Symbol.items.inj hsymbol))
  | more hitem _ _ _ ihrow =>
    intro shape hshape
    rcases List.mem_cons.mp hshape with rfl | hshape
    · exact .inl (hargument hitem (Symbol.items.inj hsymbol))
    rcases List.mem_cons.mp hshape with rfl | hshape
    · exact .inr ⟨_, rfl⟩
    · exact ihrow hsymbol shape hshape
  | _ => exact absurd hsymbol nofun

end Grammar

/-- The tokens of a part of an excerpt stand next to each other, too. -/
theorem Tree.Excerpt.subtree {tree sub : Tree} (h : tree.Excerpt) (hsub : sub ∈ tree.subtrees)
    (hne : sub.tokens ≠ []) : sub.Excerpt := by
  rcases tokens_of_subtree tree hsub with ⟨before, after, htokens⟩
  rcases h.lexes with ⟨text, rest, hlexes⟩
  rw [htokens] at hlexes
  rcases hlexes.split with ⟨_, _, hmore⟩
  rcases hmore.split with ⟨_, hthis, _⟩
  refine ⟨hne, ⟨_, _, hthis⟩, fun tok htok => h.kinds tok ?_⟩
  rw [htokens, List.mem_append, List.mem_append]
  exact .inr (.inl htok)

/-- The arguments of a text without diagnostics are expressions, and can be taken out of it. -/
theorem Parse.Clean.argument {text : Text} {parse : Parse} {row : List Shape}
    (h : Parse.Clean text parse row) (hrow : Shape.Each Grammar.Production row) {args : Node}
    (hargs : args ∈ parse.root.descendants) (hkind : args.kind = .argList) {operand : Tree}
    (hoperand : operand ∈ args.tree.childNodes) :
    operand.Excerpt ∧ Grammar.Standalone operand.shape := by
  rcases h.mem_subtreesOf hargs (by rw [hkind]; decide) with ⟨trees, _, _, hshapes, hmem⟩
  have hproduction := hrow _ (hshapes ▸ Tree.shape_of_subtreesOf trees hmem)
  rw [Node.tree, Tree.shape, hkind] at hproduction
  rcases hproduction.exists_arguments with ⟨opening, closing, items, hchildren, hitems⟩
  rcases List.mem_filter.mp hoperand with ⟨hchild, hisNode⟩
  have hshape : operand.shape ∈ Tree.shapesOf args.children := by
    rw [Tree.shapesOf_eq_map]
    exact List.mem_map_of_mem hchild
  -- An operand is a node and none of the tokens of the list.
  have hword (word : Word) : operand.shape ≠ .word word := by
    rcases operand with tok | ⟨kind, children⟩
    · exact absurd hisNode Bool.false_ne_true
    · exact Shape.noConfusion
  have hstandalone : Grammar.Standalone operand.shape := by
    rw [hchildren] at hshape
    rcases List.mem_cons.mp hshape with heq | hshape
    · exact absurd heq (hword _)
    rcases List.mem_append.mp hshape with hshape | hshape
    · rcases hitems.standalone_argument rfl _ hshape with hthis | ⟨comma, heq⟩
      · exact hthis
      · exact absurd heq (hword _)
    · exact absurd (List.mem_singleton.mp hshape) (hword _)
  have hne : operand.tokens ≠ [] := fun hnil => hstandalone.words_ne_nil
    (by rw [Tree.words_shape, hnil, List.map_nil])
  have hsub : operand ∈ args.tree.subtrees := by
    refine Tree.subtrees_child hchild ?_
    rcases operand with tok | ⟨kind, children⟩
    · exact absurd hisNode Bool.false_ne_true
    · exact List.mem_cons_self
  -- The list has tokens because the operand has.
  have hwhole : args.tree.Excerpt := by
    refine h.excerpt hargs (by rw [hkind]; decide) fun hnil => hne ?_
    rcases Tree.tokens_of_subtree args.tree hsub with ⟨before, after, htokens⟩
    rw [hnil] at htokens
    exact (List.append_eq_nil_iff.mp (List.append_eq_nil_iff.mp htokens.symm).2).1
  exact ⟨hwhole.subtree hsub hne, hstandalone⟩

theorem fragment_of_parseGenerated {text : Text} {parse : Parse}
    (h : parseGenerated text = .ok parse) : Parse.fragment text = .ok parse := by
  rw [parseGenerated] at h
  rcases hfragment : Parse.fragment text with diagnostics | found
  · rw [hfragment] at h
    exact absurd h nofun
  · rw [hfragment] at h
    rw [Except.ok.inj h]

namespace FormatCall

/-- The call that a text is read as is in its tree. -/
theorem mem_descendants_of_call? {root call : Node} (h : call? root = some call) :
    call ∈ root.descendants := by
  rcases Option.bind_eq_some_iff.mp h with ⟨stmt, hstmt, h⟩
  rcases Option.bind_eq_some_iff.mp hstmt with ⟨first, hfirst, hstmt⟩
  rcases Option.bind_eq_some_iff.mp h with ⟨value, hvalue, hcall⟩
  rw [(Node.cast?_eq_some hstmt).1] at hvalue
  rw [(Node.cast?_eq_some hcall).1]
  have hroot : root ∈ root.descendants := Node.mem_descendants.mpr List.mem_cons_self
  have hchild := Node.mem_descendants_of_child hroot
    (Node.mem_elements_of_childNodes (List.mem_of_getElem? hfirst))
  exact Node.mem_descendants_of_child hchild
    (Node.mem_elements_of_childNodes (List.mem_of_getElem? hvalue))

/-- The operands of a call that was read are expressions, and can be taken out of it. -/
theorem operands_of_parse {text : Text} {call : FormatCall} (h : parse text = .ok call) :
    ∀ operand ∈ call.operands, operand.Excerpt ∧ Grammar.Standalone operand.shape := by
  rcases bind_eq_ok h with ⟨parse, hparse, h⟩
  rcases Parse.clean_fragment_of_diagnostics (fragment_of_parseGenerated hparse) with
    ⟨row, hderives, hclean⟩
  dsimp only at h
  split at h
  · exact absurd h throw_ne_ok
  rename_i found hfound
  split at h
  · exact absurd h throw_ne_ok
  rename_i format operands hargs
  split at h
  · rw [← Except.ok.inj h]
    intro operand hoperand
    -- The operands are children of a list of arguments in a clean fragment.
    rcases hlist : found.argList? with _ | args
    · rw [hlist] at hargs
      exact absurd hargs.symm (List.cons_ne_nil _ _)
    rw [hlist, Option.map_some, Option.getD_some] at hargs
    have hkind : args.kind = .argList := beq_iff_eq.mp (List.find?_some
      (p := fun node : Node => node.kind == .argList) hlist)
    have hnode : args ∈ parse.root.descendants := Node.mem_descendants_of_child
      (mem_descendants_of_call? hfound)
      (Node.mem_elements_of_childNodes (List.mem_of_find?_eq_some hlist))
    refine hclean.argument hderives.productions hnode hkind ?_
    rw [hargs]
    exact List.mem_cons_of_mem _ hoperand
  · exact absurd h throw_ne_ok

end FormatCall

/-- A converter that gives no calls but such that it read from a text. -/
def Converter.ReadsCalls (converter : Converter) : Prop :=
  ∀ concat call, converter.convert concat = .ok call → ∃ text, FormatCall.parse text = .ok call

theorem Converter.readsCalls_sprintf : sprintf.ReadsCalls := by
  intro concat call h
  have hconvert : (do let draft ← concat.operands.foldlM Draft.add ⟨[], []⟩
                      FormatCall.parse draft.render) = .ok call := h
  rcases bind_eq_ok hconvert with ⟨draft, _, hparse⟩
  exact ⟨draft.render, hparse⟩

/-! ## The words of a hoist -/

/-- A variable in front of a blank. -/
theorem Lexer.scan_variable {name : Text} (hname : isName name = true) (rest : Text) :
    Lexer.scan ('$' :: name ++ ' ' :: rest) =
      (.variableName, ⟨'$' :: name, ' ' :: rest, true⟩) := by
  rw [isName, Bool.and_eq_true] at hname
  rcases name with _ | ⟨c, name⟩
  · exact absurd hname.1 Bool.false_ne_true
  have hstart : isIdentStart c = true := hname.1
  have hrun : Cut.run isIdentContinue (c :: name ++ ' ' :: rest) = ⟨c :: name, ' ' :: rest, true⟩ :=
    Cut.run_eq_iff.mpr ⟨List.all_eq_true.mp hname.2, rfl⟩
  have hscan : Lexer.scan ('$' :: (c :: name ++ ' ' :: rest)) =
      scanPlain '$' (c :: name ++ ' ' :: rest) := rfl
  rw [List.cons_append, hscan, scanPlain, if_pos ⟨rfl, hstart⟩, hrun]
  rfl

/-- Only a variable has a dollar sign for its first character. -/
theorem Lexer.head_of_scan {text : Text} {cut : Cut} (h : scan text = (.variableName, cut)) :
    ∃ rest, text = '$' :: rest := by
  generalize hkind : Kind.variableName = kind at h
  cases spelling_of_scan h with
  | dollar htext => exact ⟨_, htext⟩
  | mark hword _ =>
    have hplain : ∀ entry ∈ punctuation, entry.2 ≠ .variableName := by decide +kernel
    exact absurd hkind.symm (hplain _ hword)
  | other _ hother => exact absurd (hkind ▸ List.mem_cons_self) hother
  | heredoc _ =>
    split at hkind
    · exact absurd hkind (by decide)
    · exact absurd hkind (by decide)
  | single | double => exact absurd hkind (by decide)

namespace Lexed

variable {tokens : List Token} {text rest : Text}

/-- What is read from a text that is read as tokens is the first of them. -/
theorem scan_head {tok : Token} (h : Lexed (tok :: tokens) text rest) :
    ∃ after, Lexer.scan text = (tok.kind, ⟨tok.text, after, true⟩) := by
  rcases h with ⟨hnone, hlexes⟩
  cases hlexes with
  | cons hleading _ hscan _ _ =>
    rw [(hleading.eq_nil hnone).2] at hscan
    exact ⟨_, hscan⟩

end Lexed

/-- The text of a row of tokens with a word behind it. -/
theorem Token.trimmed_append_word {front : List Token} (hne : front ≠ [])
    (hleading : startWith [] front = front) (kind : Kind) (text : Text) (trailing : List Trivia) :
    trimmed (front ++ [⟨[], kind, text, trailing⟩]) = front.flatMap fullText ++ text := by
  rw [trimmed, endWith_append [] (List.cons_ne_nil _ _), startWith_append [] hne, hleading,
    List.flatMap_append]
  simp only [endWith, List.flatMap_singleton, fullText, leadingText, trailingText, List.flatMap_nil,
    List.nil_append, List.append_nil]

namespace Hoist

variable {hoist : Hoist} {operand : Tree}

/-- A hoist is read as some words, whatever comes behind it. -/
def Reads (hoist : Hoist) (words : List Word) : Prop :=
  ∀ ⦃tokens : List Token⦄ ⦃trailing : List Trivia⦄ ⦃after between rest : Text⦄,
    Lexes tokens between rest → Trivia.Takes false trailing after between →
      ∃ stmt, Lexed (stmt ++ tokens) (hoist.text ++ after) rest ∧ stmt.map Token.word = words ∧
        Token.trimmed stmt = hoist.text

/-- An operand with a semicolon behind it. -/
theorem lexed_operand (hexcerpt : operand.Excerpt) {tokens : List Token} {trailing : List Trivia}
    {after between rest : Text} (htokens : Lexes tokens between rest)
    (hafter : Trivia.Takes false trailing after between) :
    Lexed (Token.bare operand.tokens ++ (⟨[], .semicolon, [';'], trailing⟩ :: tokens))
      (operand.trimmed ++ ';' :: after) rest := by
  have hstop : Lexed (⟨[], .semicolon, [';'], trailing⟩ :: tokens) ([';'] ++ after) rest :=
    .ofLexes htokens hafter (List.cons_ne_nil _ _) rfl rfl
  exact hstop.excerpt hexcerpt hstop.spelled.tight (follows_of_calm rfl)
    (Heredoc.breaks_of_head rfl rfl)

theorem word_bare (tokens : List Token) :
    (Token.bare tokens).map Token.word = tokens.map Token.word := by
  rw [Token.bare, Token.word_startWith, Token.word_endWith]

theorem bare_ne_nil {tokens : List Token} (h : tokens ≠ []) : Token.bare tokens ≠ [] := by
  intro hnil
  refine h (List.eq_nil_of_length_eq_zero ?_)
  rw [← Token.length_bare, hnil]
  rfl

/-- An assignment that is its own statement. -/
theorem reads_assignment (hexcerpt : operand.Excerpt)
    (h : hoist.text = operand.trimmed ++ [';']) :
    hoist.Reads (operand.shape.words ++ [⟨.semicolon, [';']⟩]) := by
  intro tokens trailing after between rest htokens hafter
  refine ⟨Token.bare operand.tokens ++ [⟨[], .semicolon, [';'], trailing⟩], ?_, ?_, ?_⟩
  · rw [h, List.append_assoc, List.append_assoc]
    exact lexed_operand hexcerpt htokens hafter
  · rw [List.map_append, word_bare, Tree.words_shape]
    rfl
  · rw [Token.trimmed_append_word (bare_ne_nil hexcerpt.ne_nil) (Token.startWith_startWith _ _ _),
      ← Token.trimmed_eq_bare, ← Tree.trimmed_eq hexcerpt.kinds, h]

/-- An operand that is evaluated into a variable. -/
theorem reads_variable {name : Text} (hexcerpt : operand.Excerpt) (hname : isName name = true)
    (h : hoist.text = '$' :: name ++ " = ".toList ++ operand.trimmed ++ [';']) :
    hoist.Reads (⟨.variableName, '$' :: name⟩ :: ⟨.equals, ['=']⟩ ::
      (operand.shape.words ++ [⟨.semicolon, [';']⟩])) := by
  intro tokens trailing after between rest htokens hafter
  -- Read from the back: the operand with its semicolon, the sign and the variable in front of it.
  have hvalue := lexed_operand hexcerpt htokens hafter
  have hequals := hvalue.word hvalue.spelled.spaced (List.cons_ne_nil '=' []) rfl rfl
  have hvariable := hequals.word hequals.spelled.spaced (List.cons_ne_nil '$' name) rfl
    (Lexer.scan_variable hname _)
  refine ⟨(⟨[], .variableName, '$' :: name, [⟨.whitespace, [' ']⟩]⟩ ::
    ⟨[], .equals, ['='], [⟨.whitespace, [' ']⟩]⟩ :: Token.bare operand.tokens) ++
      [⟨[], .semicolon, [';'], trailing⟩], ?_, ?_, ?_⟩
  · rw [h]
    simp only [List.append_assoc, List.cons_append] at hvariable ⊢
    exact hvariable
  · rw [List.map_append, List.map_cons, List.map_cons, word_bare, Tree.words_shape]
    rfl
  · rw [Token.trimmed_append_word (List.cons_ne_nil _ _) rfl, List.flatMap_cons, List.flatMap_cons,
      ← Token.trimmed_eq_bare, ← Tree.trimmed_eq hexcerpt.kinds, h]
    simp only [Token.fullText, Token.leadingText, Token.trailingText, List.flatMap_nil,
      List.flatMap_singleton, List.nil_append, List.append_assoc, List.cons_append]
    rfl

/-- A hoist that is read as one statement, which begins with a variable. -/
structure IsStmt (hoist : Hoist) (shape : Shape) : Prop where
  derived : ∀ look, Grammar.DerivesStmt .stmt look [shape]
  begins : ∃ word, shape.words.head? = some word ∧ word.kind = .variableName
  reads : hoist.Reads shape.words

/-- The words that are read in front of other code are those of the hoist by itself. -/
theorem Reads.spells {words : List Word} (h : hoist.Reads words) :
    Lexing.Spells hoist.text words := by
  rcases h .nil (@Trivia.Takes.nil false [] rfl) with ⟨stmt, hlexed, hwords, _⟩
  rw [List.append_nil, List.append_nil] at hlexed
  exact hwords ▸ hlexed.tokens_eq.2

/-- What is read from a hoist by itself is one statement. -/
theorem isStmt_of_reads {first : Word} {words : List Word}
    (hreads : hoist.Reads (first :: (words ++ [⟨.semicolon, [';']⟩])))
    (hfirst : first.kind = .variableName) (hunended : ∀ word ∈ words, word.kind ≠ .semicolon)
    (hparse : ∃ parse, parseGenerated hoist.text = .ok parse) : ∃ shape, hoist.IsStmt shape := by
  rcases hparse with ⟨parse, hparse⟩
  rcases Parse.clean_fragment_of_diagnostics (fragment_of_parseGenerated hparse) with
    ⟨row, hderives, hclean⟩
  have hrow : Shape.wordsOf row = first :: (words ++ [⟨.semicolon, [';']⟩]) := by
    rw [← hclean.spells.words, hreads.spells.words]
  rcases hderives.single hrow hfirst hunended with ⟨shape, rfl, hderived⟩
  rw [Shape.wordsOf_cons, Shape.wordsOf_nil, List.append_nil] at hrow
  exact ⟨shape, hderived, ⟨first, by rw [hrow]; rfl, hfirst⟩, hrow ▸ hreads⟩

end Hoist

namespace Resolution

variable {operands : List Tree} {names after : Names} {resolution : Resolution} {tree : Tree}
  {index : Nat} {step : Step}

/-- The hoist of an operand is one statement. -/
theorem isStmt_of_operand (h : operand index tree names = .ok step) {hoist : Hoist}
    (hhoist : step.hoist = some hoist) (hexcerpt : tree.Excerpt)
    (hstandalone : Grammar.Standalone tree.shape)
    (hparse : ∃ parse, parseGenerated hoist.text = .ok parse) : ∃ shape, hoist.IsStmt shape := by
  -- The semicolon of an assignment is the only one, so it is one statement.
  have hunended : ∀ word ∈ tree.shape.words, word.kind ≠ .semicolon := by
    have hrow := (hstandalone _ Grammar.inert_none).unended
    rwa [Grammar.Unended, Shape.wordsOf_cons, Shape.wordsOf_nil, List.append_nil] at hrow
  rcases operand_eq_ok h with ⟨_, _, _, rfl⟩ | ⟨_, rfl⟩ | ⟨target, hclass, htarget, rfl⟩ |
    ⟨_, base, hbase, rfl⟩
  · exact absurd hhoist.symm (Option.some_ne_none _)
  · exact absurd hhoist.symm (Option.some_ne_none _)
  · -- The variable is the first word of the assignment.
    rcases Tree.begins_of_assignment hstandalone hclass htarget with ⟨first, hfirst, hvariable⟩
    rcases hwords : tree.shape.words with _ | ⟨word, words⟩
    · rw [hwords] at hfirst
      exact absurd hfirst.symm (Option.some_ne_none _)
    rw [hwords, List.head?_cons, Option.some.injEq] at hfirst
    have hreads : hoist.Reads (tree.shape.words ++ [⟨.semicolon, [';']⟩]) :=
      Hoist.reads_assignment hexcerpt (congrArg Hoist.text (Option.some.inj hhoist)).symm
    rw [hwords] at hreads hunended
    exact Hoist.isStmt_of_reads hreads (hfirst ▸ hvariable)
      (fun word hword => hunended word (List.mem_cons_of_mem _ hword)) hparse
  -- A new variable is a name, and its assignment begins with it.
  · have hname := Names.isName_free names (isName_base hbase index)
    have hreads : hoist.Reads (_ :: ((⟨.equals, ['=']⟩ :: tree.shape.words) ++ _)) :=
      Hoist.reads_variable hexcerpt hname (congrArg Hoist.text (Option.some.inj hhoist)).symm
    refine Hoist.isStmt_of_reads hreads rfl (fun word hword => ?_) hparse
    rcases List.mem_cons.mp hword with rfl | hword
    · exact Kind.noConfusion
    · exact hunended word hword

/-- The hoists of operands are statements. -/
theorem isStmt_of_ofFrom (h : ofFrom index operands names = .ok (resolution, after))
    (hoperands : ∀ tree ∈ operands, tree.Excerpt ∧ Grammar.Standalone tree.shape)
    (hparse : ∀ hoist ∈ resolution.hoists, ∃ parse, parseGenerated hoist.text = .ok parse) :
    ∀ hoist ∈ resolution.hoists, ∃ shape, hoist.IsStmt shape := by
  -- By induction on the operands, each of which adds one assignment or none.
  induction operands generalizing index names resolution after with
  | nil =>
    have heq := Except.ok.inj h
    rw [Prod.mk.injEq] at heq
    rw [← heq.1]
    exact fun hoist hhoist => absurd hhoist List.not_mem_nil
  | cons tree more ih =>
    rcases bind_eq_ok h with ⟨step, hstep, h⟩
    rcases bind_eq_ok h with ⟨⟨rest, last⟩, hrest, h⟩
    have heq := Except.ok.inj h
    rw [Prod.mk.injEq] at heq
    rw [← heq.1] at hparse ⊢
    intro hoist hhoist
    rcases List.mem_append.mp hhoist with hself | hmore
    · rcases hoperands tree List.mem_cons_self with ⟨hexcerpt, hstandalone⟩
      exact isStmt_of_operand hstep (Option.mem_toList.mp hself) hexcerpt hstandalone
        (hparse hoist hhoist)
    · exact ih hrest (fun tree htree => hoperands tree (List.mem_cons_of_mem _ htree))
        (fun hoist hhoist => hparse hoist (List.mem_append_right _ hhoist)) hoist hmore

end Resolution

/-! ## Statements in front of a statement -/

/-- A line end or a blank between two statements. -/
def Text.IsSeparator (separator : Text) : Prop :=
  separator = [' '] ∨ ∃ indent, indent.all isBlank = true ∧ separator = '\n' :: indent

theorem Edit.isSeparator (text : Text) (start : Nat) : IsSeparator (Edit.separator text start) := by
  rw [Edit.separator]
  split
  · rename_i indent hindent
    rw [Edit.indentation?] at hindent
    split at hindent
    · rename_i hblank
      exact .inr ⟨indent, (Option.some.inj hindent) ▸ hblank, rfl⟩
    · exact absurd hindent nofun
  · exact .inl rfl

/-- A line end and the indentation behind it in front of a text. -/
theorem Trivia.takes_indent {indent text : Text} (hindent : indent.all isBlank = true)
    (hnone : scan? true text = none) :
    ∃ pieces, Takes true pieces ('\n' :: (indent ++ text)) text := by
  have hspace (c : Char) (h : isBlank c = true) : isSpace c = true ∧ isLineEnd c = false := by
    rw [isBlank, Bool.or_eq_true, beq_iff_eq, beq_iff_eq] at h
    rcases h with rfl | rfl <;> decide
  have hhead : text.head?.any isSpace = false ∧ text.head?.any isLineEnd = false := by
    rcases text with _ | ⟨c, text⟩
    · exact ⟨rfl, rfl⟩
    · have hchar := scan?_eq_none_iff.mp hnone
      exact ⟨hchar.2.1, hchar.1 rfl⟩
  -- The blanks are one piece of trivia, if there are any.
  have hblanks : ∃ pieces, Takes true pieces (indent ++ text) text := by
    rcases indent with _ | ⟨c, indent⟩
    · exact ⟨[], .nil hnone⟩
    rw [List.all_cons, Bool.and_eq_true] at hindent
    have hrun : Cut.run isSpace (indent ++ text) = ⟨indent, text, true⟩ :=
      Cut.run_eq_iff.mpr ⟨fun d hd => (hspace d (List.all_eq_true.mp hindent.2 d hd)).1, hhead.1⟩
    refine ⟨[⟨.whitespace, c :: indent⟩],
      @Takes.cons true ⟨.whitespace, c :: indent⟩ [] text text ?_ (.nil hnone)⟩
    rw [List.cons_append, scan?_cons, (hspace c hindent.1).2, Bool.and_false,
      if_neg Bool.false_ne_true, if_pos (hspace c hindent.1).1, hrun]
    rfl
  rcases hblanks with ⟨pieces, hpieces⟩
  have hline : Cut.run isLineEnd ([] ++ (indent ++ text)) = ⟨[], indent ++ text, true⟩ := by
    refine Cut.run_eq_iff.mpr ⟨List.forall_mem_nil _, ?_⟩
    rcases indent with _ | ⟨c, indent⟩
    · exact hhead.2
    · rw [List.all_cons, Bool.and_eq_true] at hindent
      exact (hspace c hindent.1).2
  refine ⟨⟨.newline, ['\n']⟩ :: pieces,
    @Takes.cons true ⟨.newline, ['\n']⟩ pieces (indent ++ text) text ?_ hpieces⟩
  exact congrArg (fun cut => some (TriviaKind.newline, Cut.cons '\n' cut)) hline

namespace Lexed

variable {tokens : List Token} {text rest : Text}

theorem startWith_nil (h : Lexed tokens text rest) : Token.startWith [] tokens = tokens := by
  rcases tokens with _ | ⟨tok, tokens⟩
  · rfl
  · cases h.2 with
    | cons hleading _ _ _ _ =>
      rw [Token.startWith, ← (hleading.eq_nil h.1).1]

/-- Tokens behind a line end or a blank. -/
theorem separated (h : Lexed tokens text rest) (hne : tokens ≠ []) {separator : Text}
    (hseparator : IsSeparator separator) :
    ∃ trailing leading between, Trivia.Takes false trailing (separator ++ text) between ∧
      Lexes (Token.startWith leading tokens) between rest := by
  rcases hseparator with rfl | ⟨indent, hindent, rfl⟩
  · exact ⟨_, [], text, h.spelled.spaced, h.startWith hne (.nil h.1)⟩
  · rcases Trivia.takes_indent hindent h.1 with ⟨pieces, hpieces⟩
    exact ⟨[], pieces, _, .nil rfl, h.startWith hne hpieces⟩

end Lexed

/-- A tree is the statement that a hoist is read as. -/
structure Hoist.Becomes (hoist : Hoist) (tree : Tree) : Prop where
  stmt : hoist.IsStmt tree.shape
  trimmed : tree.trimmed = hoist.text
  kinds : ∀ tok ∈ tree.tokens, tok.kind.isTrivia = false

namespace Hoist

variable {hoist : Hoist} {hoists : List Hoist} {hoisted : List Tree} {tokens : List Token}
  {text rest separator : Text}

/-- The statement of a hoist begins with a variable. -/
theorem Becomes.exists_tokens {tree : Tree} (h : hoist.Becomes tree) :
    ∃ first more, tree.tokens = first :: more ∧ first.kind = .variableName := by
  rcases h.stmt.begins with ⟨word, hword, hkind⟩
  rw [Tree.words_shape, List.head?_map, Option.map_eq_some_iff] at hword
  rcases hword with ⟨first, hfirst, rfl⟩
  rcases List.head?_eq_some_iff.mp hfirst with ⟨more, htokens⟩
  exact ⟨first, more, htokens, hkind⟩

/-- The statements of hoists may stand in front of any code. -/
theorem derived_hoisted (h : List.Forall₂ Becomes hoists hoisted) :
    ∀ shape ∈ Tree.shapesOf hoisted, ∀ look, Grammar.DerivesStmt .stmt look [shape] := by
  induction h with
  | nil => exact fun shape hshape => absurd hshape List.not_mem_nil
  | cons hfirst _ ih =>
    intro shape hshape
    rcases List.mem_cons.mp hshape with rfl | hshape
    · exact hfirst.stmt.derived
    · exact ih shape hshape

/-- A statement with other trivia in front of it. -/
theorem Becomes.startWith {tree : Tree} (h : hoist.Becomes tree) (leading : List Trivia) :
    ∃ other, hoist.Becomes other ∧ other.tokens = Token.startWith leading tree.tokens := by
  have hwords := Token.word_startWith leading tree.tokens
  -- The words stay, so a tree of the same shape can be put over the tokens.
  rcases Tree.exists_of_words tree.shape (Token.startWith leading tree.tokens)
    (by rw [hwords, Tree.words_shape]) with ⟨other, hshape, htokens⟩
  have hkinds : ∀ tok ∈ other.tokens, tok.kind.isTrivia = false := by
    intro tok htok
    have hmem : tok.word ∈ tree.tokens.map Token.word := by
      rw [← hwords, ← htokens]
      exact List.mem_map_of_mem htok
    rcases List.mem_map.mp hmem with ⟨old, hold, hword⟩
    rw [show tok.kind = old.kind from (congrArg Word.kind hword).symm]
    exact h.kinds old hold
  refine ⟨other, ⟨hshape ▸ h.stmt, ?_, hkinds⟩, htokens⟩
  rw [Tree.trimmed_eq hkinds, htokens, Token.trimmed_eq_bare, Token.bare_startWith,
    ← Token.trimmed_eq_bare, ← Tree.trimmed_eq h.kinds, h.trimmed]

/-- Trivia in front of statements belong to the first of them, or to what comes behind them. -/
theorem startWith_hoisted (h : List.Forall₂ Becomes hoists hoisted)
    (leading other : List Trivia) (tokens : List Token) :
    ∃ hoisted' other', List.Forall₂ Becomes hoists hoisted' ∧
      Token.startWith leading (Tree.tokensOf hoisted ++ Token.startWith other tokens) =
        Tree.tokensOf hoisted' ++ Token.startWith other' tokens := by
  rcases h with _ | ⟨hfirst, hothers⟩
  · exact ⟨[], leading, .nil, Token.startWith_startWith leading other tokens⟩
  · rcases hfirst.startWith leading with ⟨next, hnext, htokens⟩
    rcases hfirst.exists_tokens with ⟨first, more, hmore, _⟩
    refine ⟨next :: _, other, .cons hnext hothers, ?_⟩
    rw [Tree.tokensOf, Tree.tokensOf, List.append_assoc, List.append_assoc,
      Token.startWith_append _ (by rw [hmore]; exact List.cons_ne_nil _ _), htokens]

/-- Hoists in front of other code are statements of their own. -/
theorem lexed_hoists (h : ∀ hoist ∈ hoists, ∃ shape, hoist.IsStmt shape)
    (hseparator : IsSeparator separator) (hlexed : Lexed tokens text rest) (hne : tokens ≠ []) :
    ∃ hoisted leading, List.Forall₂ Becomes hoists hoisted ∧
      Lexed (Tree.tokensOf hoisted ++ Token.startWith leading tokens)
        (hoists.flatMap (fun hoist => hoist.text ++ separator) ++ text) rest := by
  induction hoists with
  | nil => exact ⟨[], [], .nil, by rwa [hlexed.startWith_nil]⟩
  | cons hoist hoists ih =>
    rcases ih fun it hit => h it (List.mem_cons_of_mem _ hit) with ⟨hoisted, leading, hmore, hrest⟩
    rcases h hoist List.mem_cons_self with ⟨shape, hstmt⟩
    have hrestNe : Tree.tokensOf hoisted ++ Token.startWith leading tokens ≠ [] := by
      refine List.append_ne_nil_of_right_ne_nil _ fun hnil => hne ?_
      have hwords := Token.word_startWith leading tokens
      rw [hnil] at hwords
      exact List.map_eq_nil_iff.mp hwords.symm
    -- What separates the hoist from the next statement goes in front of that.
    rcases hrest.separated hrestNe hseparator with ⟨trailing, between, next, htakes, hnext⟩
    rcases startWith_hoisted hmore between leading tokens with ⟨others, leading', hothers, htokens⟩
    rw [htokens] at hnext
    rcases hstmt.reads hnext htakes with ⟨stmt, hwhole, hwords, htext⟩
    rcases Tree.exists_of_words shape stmt hwords.symm with ⟨tree, rfl, rfl⟩
    have hkinds : ∀ tok ∈ tree.tokens, tok.kind.isTrivia = false := fun tok htok =>
      Kind.isTrivia_of_isLexeme (hwhole.2.isLexeme tok (List.mem_append_left _ htok))
    have htree : hoist.Becomes tree := ⟨hstmt, by rw [← htext, Tree.trimmed_eq hkinds], hkinds⟩
    refine ⟨tree :: others, leading', .cons htree hothers, ?_⟩
    rwa [Tree.tokensOf, List.flatMap_cons, List.append_assoc, List.append_assoc, List.append_assoc]

end Hoist

namespace Text

/-- A variable can stand behind everything. -/
theorem joins_dollar (before rest : Text) : Joins before ('$' :: rest) :=
  ⟨fun b _ => isQuiet_of_isCalm rfl b, Heredoc.breaks_of_head rfl rfl⟩

end Text

namespace Lexes

variable {front more : List Token} {next : Token} {text rest body : Text}

/-- The first token of a stretch without the trivia in front of it. -/
theorem lexed_head (h : Lexes (next :: more) (next.leadingText ++ body) rest) :
    Lexed (Token.startWith [] (next :: more)) body rest := by
  have hnone : Trivia.scan? true body = none := by
    cases h with
    | cons hleading _ _ _ _ =>
      have hbody := hleading.text_eq
      rw [Token.leadingText, List.append_cancel_left_eq] at hbody
      rw [hbody]
      exact hleading.scan?_rest
  exact ⟨hnone, h.startWith (.nil hnone)⟩

/-- Hoists put in front of a token, behind the trivia in front of it. -/
theorem hoisted (h : Lexes (front ++ next :: more) text rest)
    (hbody : text = front.flatMap Token.fullText ++ (next.leadingText ++ body))
    (hkind : next.kind ≠ .unknown) {hoists : List Hoist}
    (hstmts : ∀ hoist ∈ hoists, ∃ shape, hoist.IsStmt shape) {separator : Text}
    (hseparator : IsSeparator separator) :
    ∃ hoisted leading, List.Forall₂ Hoist.Becomes hoists hoisted ∧
      Lexes (front ++ (Tree.tokensOf hoisted ++ Token.startWith leading (next :: more)))
        (front.flatMap Token.fullText ++ (next.leadingText ++
          (hoists.flatMap (fun hoist => hoist.text ++ separator) ++ body))) rest := by
  rcases hoists with _ | ⟨hoist, hoists⟩
  · exact ⟨[], next.leading, .nil, hbody ▸ h⟩
  rcases h.split with ⟨mid, hfront, hback⟩
  have hmid : mid = next.leadingText ++ body := by
    have htext := hfront.text_eq
    rw [hbody, List.append_cancel_left_eq] at htext
    exact htext.symm
  have hstart : ∀ leading, Token.startWith leading (Token.startWith [] (next :: more)) =
      Token.startWith leading (next :: more) := fun _ => rfl
  have hhead := (hmid ▸ hback).lexed_head
  generalize Token.startWith [] (next :: more) = bare at hstart hhead
  have hne : bare ≠ [] := by
    rintro rfl
    exact absurd (hstart []) nofun
  rcases Hoist.lexed_hoists hstmts hseparator hhead hne with ⟨hoisted, other, hhoisted, hlexed⟩
  rcases Hoist.startWith_hoisted hhoisted next.leading other bare with
    ⟨hoisted', leading, hhoisted', htokens⟩
  refine ⟨hoisted', leading, hhoisted', ?_⟩
  -- The hoists begin with a variable, which may stand behind everything.
  rcases hhoisted with _ | ⟨hfirst, _⟩
  rcases hfirst.exists_tokens with ⟨first, rest', hfirst, hvariable⟩
  rw [Tree.tokensOf, hfirst] at hlexed htokens
  rcases hlexed.scan_head with ⟨after, hscan⟩
  rw [hvariable] at hscan
  rcases Lexer.head_of_scan hscan with ⟨behind, hdollar⟩
  have hjoins := joins_dollar (front.flatMap Token.fullText ++ next.leadingText) behind
  have hfollows : Follows [] ('$' :: behind) := follows_of_calm rfl
  rw [← hdollar] at hjoins hfollows
  -- Nothing in front of a dollar sign is read on into it.
  have hspliced := h.spliced hlexed (List.cons_ne_nil _ _) hjoins hkind
    fun tok htok _ old hold => by
      have hnil : Lexer.scan (tok.text ++ ([] ++ old)) =
          (tok.kind, ⟨tok.text, [] ++ old, true⟩) := hold
      exact Lexer.scan_retail hfollows hjoins.breaks
        (h.text_ne_nil tok (List.mem_append_left _ (List.mem_of_getLast? htok))) hnil
  rw [htokens, hstart] at hspliced
  exact hspliced

end Lexes

end PhpAssist

import PhpAssist.Proofs.Stretches
import PhpAssist.Tree.View

/-!
# Expressions taken out of a text

What an expression is does not depend on where it stands. Its text can be taken out of a text that
is read without a diagnostic and put somewhere else, where something that continues no expression
comes behind it: the same tokens are read from it, and they make up the same expression.

Both the tokens and the grammar have to be looked at for this. A token that ended in front of a
character of the old text has to end in front of the new one too, and an operator that was strong
enough for its surroundings has to be strong enough for the new ones.

## Main definitions

* `Tree.Excerpt`: A tree whose text can be taken out of the text it was read from.
* `Lexed`, `Spelled`: A text that is read as given tokens, or as given words.

## Theorems

* `Parse.excerpt_of_expr`, `Parse.standalone_of_expr`: Every expression of a text without
  diagnostics can be taken out of it.
* `Parse.expression_by_itself`: An expression with a semicolon behind it is read as a statement
  of just this expression.
-/

namespace PhpAssist

open Text

/-- A tree whose tokens were read without an error next to each other from some text. -/
structure Tree.Excerpt (tree : Tree) : Prop where
  ne_nil : tree.tokens ≠ []
  lexes : ∃ text rest, Lexes tree.tokens text rest
  kinds : ∀ tok ∈ tree.tokens, tok.kind.isTrivia = false

namespace Tree.Excerpt

variable {tree : Tree} {other last : Text} {leading trailing : List Trivia}

/-- The tree put between trivia and another text. -/
theorem moved (h : tree.Excerpt) (hleading : Trivia.Leads leading) (hfollows : Follows [] other)
    (hbreaks : Heredoc.Breaks other) (hother : Trivia.Takes false trailing other last) :
    Lexes (Token.startWith leading (Token.endWith trailing tree.tokens))
      (leading.flatMap Trivia.text ++ (tree.trimmed ++ other)) last := by
  rcases h.lexes with ⟨text, rest, hlexes⟩
  rw [Tree.trimmed_eq h.kinds]
  exact hlexes.moved h.ne_nil hleading hfollows hbreaks hother

end Tree.Excerpt

theorem Grammar.DerivesFile.standalone_of_mem {row : List Shape} (h : Grammar.DerivesFile row) :
    Grammar.AllStandalone row := by
  cases h with
  | bare hrow => exact hrow.standalone_of_mem
  | tagged _ hrow => exact .word hrow.standalone_of_mem

/-- An expression has a word. -/
theorem Grammar.Standalone.words_ne_nil {shape : Shape} (h : Grammar.Standalone shape) :
    shape.words ≠ [] := by
  rcases (h _ Grammar.inert_none).begins with ⟨word, words, hwords, _⟩
  rw [Shape.wordsOf_cons, Shape.wordsOf_nil, List.append_nil] at hwords
  rw [hwords]
  exact List.cons_ne_nil word words

namespace Parse

variable {text : Text} {parse : Parse} {row : List Shape} {node : Node}

/-- The nodes of a parse without diagnostics but for its root. -/
theorem Clean.mem_subtreesOf_of_ne (h : Clean text parse row)
    (hnode : node ∈ parse.root.descendants) (hne : node.tree ≠ parse.root.tree) :
    ∃ trees, parse.root = .root .sourceFile (trees ++ [Tree.token (Lexing.of text).last]) ∧
      Tree.tokensOf trees = (Lexing.of text).tokens ∧ Tree.shapesOf trees = row ∧
      node.tree ∈ Tree.subtreesOf trees := by
  rcases h.root with ⟨trees, hroot, htokens, hrow⟩
  refine ⟨trees, hroot, htokens, hrow, ?_⟩
  have hmem := Node.mem_subtrees hnode
  rw [hroot] at hmem hne
  rcases List.mem_cons.mp hmem with heq | hmem
  · exact absurd heq hne
  · rw [Node.root, Tree.subtreesOf_eq_flatMap, List.flatMap_append, List.mem_append,
      ← Tree.subtreesOf_eq_flatMap] at hmem
    -- The end of the file is a token and has no subtree.
    rcases hmem with hmem | hmem
    · exact hmem
    · exact absurd hmem List.not_mem_nil

/-- The nodes below the root of a parse without diagnostics. -/
theorem Clean.mem_subtreesOf (h : Clean text parse row) (hnode : node ∈ parse.root.descendants)
    (hkind : node.kind ≠ .sourceFile) :
    ∃ trees, parse.root = .root .sourceFile (trees ++ [Tree.token (Lexing.of text).last]) ∧
      Tree.tokensOf trees = (Lexing.of text).tokens ∧ Tree.shapesOf trees = row ∧
      node.tree ∈ Tree.subtreesOf trees := by
  refine h.mem_subtreesOf_of_ne hnode fun heq => hkind ?_
  rcases h.root with ⟨trees, hroot, _, _⟩
  rw [hroot] at heq
  exact congrArg Tree.kind heq

/-- A node with a token can be taken out of a text without diagnostics. -/
theorem Clean.excerpt (h : Clean text parse row) (hnode : node ∈ parse.root.descendants)
    (hkind : node.kind ≠ .sourceFile) (hne : node.tree.tokens ≠ []) : node.tree.Excerpt := by
  rcases h.mem_subtreesOf hnode hkind with ⟨trees, _, htokens, _, hmem⟩
  rcases Tree.tokens_of_subtreesOf trees hmem with ⟨before, after, heq⟩
  rw [htokens] at heq
  rcases Lexing.lexes_of h.errors with ⟨rest, hlexes, _⟩
  rw [heq] at hlexes
  rcases hlexes.split with ⟨_, _, hmore⟩
  rcases hmore.split with ⟨_, hthis, _⟩
  refine ⟨hne, ⟨_, _, hthis⟩, fun tok htok => ?_⟩
  have hall : tok ∈ (Lexing.of text).tokens := by
    rw [heq, List.mem_append, List.mem_append]
    exact .inr (.inl htok)
  exact Kind.isTrivia_of_isLexeme (Lexing.isLexeme_of_mem hall)

theorem ne_sourceFile_of_isExpr {kind : Kind} (h : kind.isExpr = true) : kind ≠ .sourceFile := by
  rintro rfl
  exact absurd h (by decide)

/-- An expression of a file without diagnostics is one wherever nothing continues it. -/
theorem standalone_of_expr (h : (file text).diagnostics = [])
    (hnode : node ∈ (file text).root.descendants) (hexpr : node.kind.isExpr = true) :
    Grammar.Standalone node.tree.shape := by
  rcases clean_file_of_diagnostics h with ⟨row, hderives, hclean⟩
  rcases hclean.mem_subtreesOf hnode (ne_sourceFile_of_isExpr hexpr) with ⟨trees, _, _, hrow, hmem⟩
  refine hderives.standalone_of_mem _ (hrow ▸ Tree.shape_of_subtreesOf trees hmem) ?_
  rw [Tree.kind_shape]
  exact hexpr

/-- The text of an expression of a file without diagnostics can be taken out of it. -/
theorem excerpt_of_expr (h : (file text).diagnostics = [])
    (hnode : node ∈ (file text).root.descendants) (hexpr : node.kind.isExpr = true) :
    node.tree.Excerpt := by
  have hstandalone := standalone_of_expr h hnode hexpr
  rcases clean_file_of_diagnostics h with ⟨row, _, hclean⟩
  refine hclean.excerpt hnode (ne_sourceFile_of_isExpr hexpr) fun hnil => ?_
  refine hstandalone.words_ne_nil ?_
  rw [Tree.words_shape, hnil, List.map_nil]

end Parse

/-! ## Texts put together -/

/-- A text without trivia at its front is read as tokens without an error, up to a rest. -/
def Lexed (tokens : List Token) (text : Text) (rest : Text := []) : Prop :=
  Trivia.scan? true text = none ∧ Lexes tokens text rest

namespace Lexed

variable {tokens : List Token} {text rest : Text} {trailing : List Trivia}

theorem nil : Lexed [] [] := ⟨rfl, .nil⟩

theorem tokens_eq (h : Lexed tokens text) :
    (Lexing.of text).tokens = tokens ∧ Lexing.Spells text (tokens.map Token.word) := by
  refine ⟨?_, h.2.spells (.nil rfl)⟩
  have hof : Lexing.of text = _ := h.2.readFrom (.nil rfl) 0
  rw [hof]

/-- A word in front of tokens, with trivia in between or not. -/
theorem ofLexes {kind : Kind} {spelling after : Text} (h : Lexes tokens text rest)
    (htrailing : Trivia.Takes false trailing after text) (hne : spelling ≠ [])
    (hstart : Trivia.scan? true (spelling ++ after) = none)
    (hscan : Lexer.scan (spelling ++ after) = (kind, ⟨spelling, after, true⟩)) :
    Lexed (⟨[], kind, spelling, trailing⟩ :: tokens) (spelling ++ after) rest :=
  ⟨hstart, @Lexes.cons ⟨[], kind, spelling, trailing⟩ _ _ _ _ _ (.nil hstart) hne hscan htrailing
    h⟩

/-- A word in front of a text, with trivia in between or not. -/
theorem word {kind : Kind} {spelling after : Text} (h : Lexed tokens text rest)
    (htrailing : Trivia.Takes false trailing after text) (hne : spelling ≠ [])
    (hstart : Trivia.scan? true (spelling ++ after) = none)
    (hscan : Lexer.scan (spelling ++ after) = (kind, ⟨spelling, after, true⟩)) :
    Lexed (⟨[], kind, spelling, trailing⟩ :: tokens) (spelling ++ after) rest :=
  ofLexes h.2 htrailing hne hstart hscan

/-- The text of a tree in front of a text. -/
theorem excerpt {tree : Tree} {after : Text} (h : Lexed tokens text rest)
    (htree : tree.Excerpt) (htrailing : Trivia.Takes false trailing after text)
    (hfollows : Follows [] after) (hbreaks : Heredoc.Breaks after) :
    Lexed (Token.startWith [] (Token.endWith trailing tree.tokens) ++ tokens)
      (tree.trimmed ++ after) rest := by
  have hmoved := htree.moved Trivia.leads_nil hfollows hbreaks htrailing
  rw [List.flatMap_nil, List.nil_append] at hmoved
  refine ⟨?_, hmoved.append h.2⟩
  -- An excerpt has tokens, and its first one scans no trivia ahead of itself.
  rcases htokens : Token.endWith trailing tree.tokens with _ | ⟨first, more⟩
  · have hnil := congrArg (List.map Token.word) htokens
    rw [Token.word_endWith, List.map_nil, List.map_eq_nil_iff] at hnil
    exact absurd hnil htree.ne_nil
  · rw [htokens, Token.startWith] at hmoved
    cases hmoved with
    | cons hleading _ _ _ _ =>
      rw [hleading.text_eq]
      exact hleading.scan?_rest

end Lexed

/-- A text without trivia at its front is read as words without an error, up to a rest. -/
def Spelled (words : List Word) (text : Text) (rest : Text := []) : Prop :=
  Trivia.scan? true text = none ∧
    ∃ tokens, Lexes tokens text rest ∧ tokens.map Token.word = words

theorem Lexed.spelled {tokens : List Token} {text rest : Text} (h : Lexed tokens text rest) :
    Spelled (tokens.map Token.word) text rest := ⟨h.1, tokens, h.2, rfl⟩

namespace Spelled

variable {words : List Word} {text rest : Text} {trailing : List Trivia}

theorem nil : Spelled [] [] := ⟨rfl, [], .nil, rfl⟩

theorem spells (h : Spelled words text) : Lexing.Spells text words := by
  rcases h with ⟨_, tokens, hlexes, rfl⟩
  exact hlexes.spells (.nil rfl)

/-- No trivia at all in front of a text. -/
theorem tight (h : Spelled words text rest) : Trivia.Takes false [] text text := by
  refine .nil ?_
  rcases text with _ | ⟨c, rest⟩
  · rfl
  · have hnone := Trivia.scan?_eq_none_iff.mp h.1
    exact Trivia.scan?_eq_none_iff.mpr ⟨nofun, hnone.2⟩

/-- A blank in front of a text. -/
theorem spaced (h : Spelled words text rest) :
    Trivia.Takes false [⟨.whitespace, [' ']⟩] (' ' :: text) text := by
  have hnone := h.tight
  -- What follows begins with no blank, so the run ends behind the one.
  have hrun : Cut.run Trivia.isSpace ([] ++ text) = ⟨[], text, true⟩ := by
    refine Cut.run_eq_iff.mpr ⟨nofun, ?_⟩
    rcases text with _ | ⟨c, rest⟩
    · rfl
    · exact (Trivia.scan?_eq_none_iff.mp h.1).2.1
  have hspace : Trivia.scan? false ([' '] ++ text) =
      some (.whitespace, ⟨[' '], text, true⟩) := by
    have hcons : Trivia.scan? false (' ' :: text) =
      some (.whitespace, (Cut.run Trivia.isSpace ([] ++ text)).cons ' ') := rfl
    rw [List.singleton_append, hcons, hrun]
    rfl
  exact @Trivia.Takes.cons false ⟨.whitespace, [' ']⟩ [] text text hspace hnone

/-- A word in front of tokens, with trivia in between or not. -/
theorem ofLexes {kind : Kind} {spelling after : Text} {tokens : List Token}
    (h : Lexes tokens text rest) (htrailing : Trivia.Takes false trailing after text)
    (hne : spelling ≠ []) (hstart : Trivia.scan? true (spelling ++ after) = none)
    (hscan : Lexer.scan (spelling ++ after) = (kind, ⟨spelling, after, true⟩)) :
    Spelled (⟨kind, spelling⟩ :: tokens.map Token.word) (spelling ++ after) rest :=
  (Lexed.ofLexes h htrailing hne hstart hscan).spelled

/-- A word in front of a text, with trivia in between or not. -/
theorem word {kind : Kind} {spelling after : Text} (h : Spelled words text rest)
    (htrailing : Trivia.Takes false trailing after text) (hne : spelling ≠ [])
    (hstart : Trivia.scan? true (spelling ++ after) = none)
    (hscan : Lexer.scan (spelling ++ after) = (kind, ⟨spelling, after, true⟩)) :
    Spelled (⟨kind, spelling⟩ :: words) (spelling ++ after) rest := by
  rcases h with ⟨_, tokens, hlexes, rfl⟩
  exact .ofLexes hlexes htrailing hne hstart hscan

/-- The text of a tree in front of a text. -/
theorem excerpt {tree : Tree} {after : Text} (h : Spelled words text rest)
    (htree : tree.Excerpt) (htrailing : Trivia.Takes false trailing after text)
    (hfollows : Follows [] after) (hbreaks : Heredoc.Breaks after) :
    Spelled (tree.shape.words ++ words) (tree.trimmed ++ after) rest := by
  rcases h with ⟨hnone, tokens, hlexes, rfl⟩
  rcases Lexed.excerpt ⟨hnone, hlexes⟩ htree htrailing hfollows hbreaks with ⟨hstart, hwhole⟩
  refine ⟨hstart, _, hwhole, ?_⟩
  rw [List.map_append, Token.word_startWith, Token.word_endWith, ← Tree.words_shape]

end Spelled

/-- A text that begins with a calm character that cannot stand in the opening line of a heredoc
    follows every token. -/
theorem Text.follows_of_calm {c : Char} {rest : Text} (h : isCalm c = true) :
    Follows [] (c :: rest) := ⟨fun _ => h, nofun⟩

theorem Heredoc.breaks_of_head {c : Char} {rest : Text} (hc : isOpeningChar c = false)
    (hbreak : isLineBreak c = false) : Breaks (c :: rest) :=
  @breaks_of_not_isOpeningChar [] rest c nofun hc hbreak

/-- A semicolon at the end of a text. -/
theorem Spelled.semicolon : Spelled [⟨.semicolon, [';']⟩] [';'] :=
  Spelled.nil.word (.nil rfl) (List.cons_ne_nil _ _) rfl rfl

/-! ## A statement of one expression -/

namespace Tree

theorem shapesOf_eq_nil {trees : List Tree} (h : shapesOf trees = []) : trees = [] := by
  rw [shapesOf_eq_map] at h
  exact List.map_eq_nil_iff.mp h

/-- The first tree of a row whose shapes begin with a node is a node. -/
theorem node_of_shapesOf {trees : List Tree} {kind : Kind} {children more : List Shape}
    (h : shapesOf trees = .node kind children :: more) :
    ∃ below rest, trees = .node kind below :: rest ∧ shapesOf below = children ∧
      shapesOf rest = more := by
  rcases trees with _ | ⟨_ | ⟨kind', below⟩, rest⟩
  · exact absurd h (by simp only [shapesOf, reduceCtorEq, not_false_eq_true])
  · exact absurd h (by simp only [shapesOf, shape, List.cons.injEq, reduceCtorEq, false_and,
      not_false_eq_true])
  · simp only [shapesOf, shape, List.cons.injEq, Shape.node.injEq] at h
    exact ⟨below, rest, by rw [h.1.1], h.1.2, h.2⟩

/-- The first tree of a row whose shapes begin with a word is a token. -/
theorem token_of_shapesOf {trees : List Tree} {word : Word} {more : List Shape}
    (h : shapesOf trees = .word word :: more) :
    ∃ tok rest, trees = .token tok :: rest ∧ tok.word = word ∧ shapesOf rest = more := by
  rcases trees with _ | ⟨tok | ⟨kind, below⟩, rest⟩
  · exact absurd h (by simp only [shapesOf, reduceCtorEq, not_false_eq_true])
  · simp only [shapesOf, shape, List.cons.injEq, Shape.word.injEq] at h
    exact ⟨tok, rest, rfl, h.1, h.2⟩
  · exact absurd h (by simp only [shapesOf, shape, List.cons.injEq, reduceCtorEq, false_and,
      not_false_eq_true])

end Tree

namespace Parse

variable {text : Text} {node : Node}

/-- A text that was read as a single node has that node below its root. -/
theorem Clean.single {parse : Parse} {kind : Kind} {children : List Shape}
    (h : Clean text parse [.node kind children]) :
    parse.root.childNodes.map (fun node => node.tree.shape) = [.node kind children] := by
  rcases h.root with ⟨trees, hroot, _, hshapes⟩
  rcases Tree.node_of_shapesOf hshapes with ⟨below, rest, rfl, hbelow, hrest⟩
  rw [Tree.shapesOf_eq_nil hrest] at hroot
  rw [hroot]
  show [Shape.node kind (Tree.shapesOf below)] = _
  rw [hbelow]

/-- An expression of a file without diagnostics, written with a semicolon behind it, is read as one
    statement, which is this expression. -/
theorem expression_by_itself (h : (file text).diagnostics = [])
    (hnode : node ∈ (file text).root.descendants) (hexpr : node.kind.isExpr = true) :
    ∃ parse stmt value, fragment (node.trimmed ++ [';']) = .ok parse ∧ parse.finished = true ∧
      parse.root.childNodes = [stmt] ∧ parse.root.statements = [stmt] ∧ stmt.kind = .exprStmt ∧
      stmt.childNodes = [value] ∧ value.tree.shape = node.tree.shape := by
  have hstandalone := standalone_of_expr h hnode hexpr
  -- The words of the expression and the semicolon are read from the new text.
  have hspelled := Spelled.semicolon.excerpt (excerpt_of_expr h hnode hexpr) Spelled.semicolon.tight
    (follows_of_calm rfl) (Heredoc.breaks_of_head rfl rfl)
  have hrow : Grammar.DerivesStmt .stmts Option.none
      [.node .exprStmt [node.tree.shape, .word ⟨.semicolon, [';']⟩]] :=
    .cons (.expr rfl (hstandalone _ (.of_kind rfl (.inl rfl)))) .nil
  have hspells : Lexing.Spells (node.trimmed ++ [';'])
      (Shape.wordsOf [.node .exprStmt [node.tree.shape, .word ⟨.semicolon, [';']⟩]]) := by
    simp only [Shape.wordsOf_cons, Shape.wordsOf_nil, Shape.words_node, Shape.words_word,
      List.append_nil]
    exact hspelled.spells
  rcases clean_fragment hspells hrow with ⟨parse, hparse, hclean⟩
  -- The tree has the shape that was derived.
  rcases hclean.root with ⟨trees, hroot, _, hshapes⟩
  rcases Tree.node_of_shapesOf hshapes with ⟨below, rest, rfl, hbelow, hrest⟩
  rcases Tree.node_of_shapesOf hbelow with ⟨inner, more, rfl, hinner, hmore⟩
  rcases Tree.token_of_shapesOf hmore with ⟨stop, others, rfl, _, hothers⟩
  rw [Tree.shapesOf_eq_nil hrest] at hroot
  rw [Tree.shapesOf_eq_nil hothers] at hroot
  refine ⟨parse, ?_⟩
  rw [hroot]
  exact ⟨_, _, hparse, hclean.finished, rfl, rfl, rfl, rfl, congrArg (Shape.node node.kind) hinner⟩

/-- An argument that ends in a heredoc is the same concatenation in front of a semicolon. -/
theorem expression_by_itself_heredoc :
    (file "f(1 + $a . <<<X\n$b\nX\n, 'c');".toList).diagnostics = [] ∧
      ∃ node ∈ (file "f(1 + $a . <<<X\n$b\nX\n, 'c');".toList).root.descendants,
        node.kind = .concatExpr ∧ ∃ parse stmt value, fragment (node.trimmed ++ [';']) = .ok parse ∧
          parse.root.statements = [stmt] ∧ stmt.kind = .exprStmt ∧ stmt.childNodes = [value] ∧
          value.tree.shape = node.tree.shape := by
  obtain ⟨hclean, hfifth⟩ :
      (file "f(1 + $a . <<<X\n$b\nX\n, 'c');".toList).diagnostics = [] ∧
      ((file "f(1 + $a . <<<X\n$b\nX\n, 'c');".toList).root.descendants[5]?).map
        Node.kind = some .concatExpr := by
    decide +kernel
  rcases Option.map_eq_some_iff.mp hfifth with ⟨node, hget, hkind⟩
  have hnode := List.mem_of_getElem? hget
  rcases expression_by_itself hclean hnode (by rw [hkind]; rfl) with
    ⟨parse, stmt, value, hparse, _, _, hstatements, hstmt, hvalue, hshape⟩
  exact ⟨hclean, node, hnode, hkind, parse, stmt, value, hparse, hstatements, hstmt, hvalue, hshape⟩

end Parse

end PhpAssist

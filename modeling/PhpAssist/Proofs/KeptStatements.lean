import PhpAssist.Proofs.HoistStatements
import PhpAssist.Proofs.NodeTexts
import PhpAssist.Proofs.Replacing
import PhpAssist.Session

/-!
# The rest of a file stays

An assist is applied to a file only when the new text has no more diagnostics than the old one. That
alone does not keep the rest of the file: where a name stands right behind a concatenation, it runs
into the label of the heredoc that takes its place. The heredoc then goes on up to the next line
that begins with the label, and what lies in between is lost without a diagnostic.

Where nothing next to the concatenation runs into the heredoc, the rest of the file stays. The
tokens around the heredoc and around the hoists are read as before, and put together they are still
what the grammar derives, since a heredoc may stand wherever a concatenation does, and the statement
of a hoist wherever the anchor does.

## Main definitions

* `Node.Apart`: A node with nothing next to it that runs into a heredoc.
* `ConcatChain.Rewrite.Site`: Where in a file a rewrite takes place.
* `ConcatChain.Rewrite.Cut`: The tokens around that place.
* `ConcatChain.Rewrite.Site.Keeps`: What a rewrite leaves as it was.

## Theorems

* `ConcatChain.Rewrite.Cut.lexes_apply`: The tokens of the new text.
* `SourceFile.statements_kept`: Nothing is changed but the statement of the concatenation.
* `SourceFile.label_swallows`: A statement that is lost.
-/

namespace PhpAssist

open PhpAssist.Tree (Frame)
open Text

/-- No `<` stands right in front of a node, and no character of a name right behind it, so that
    nothing next to the node runs into a heredoc that takes its place. -/
def Node.Apart (text : Text) (node : Node) : Prop :=
  (takeBytes node.span.start text).getLast? ≠ some '<' ∧
    (dropBytes node.span.stop text).head?.any isIdentContinue = false

instance (text : Text) (node : Node) : Decidable (node.Apart text) :=
  inferInstanceAs (Decidable (_ ∧ _))

/-- The statement of a hoist is an expression. -/
theorem Hoist.Becomes.kind {hoist : Hoist} {tree : Tree} (h : hoist.Becomes tree) :
    tree.kind = .exprStmt := by
  rcases h.stmt.begins with ⟨word, hword, hkind⟩
  rcases (h.stmt.derived none).expr_of_variable hword hkind with ⟨value, stop, hshape, _⟩
  rw [← Tree.kind_shape, hshape]
  rfl

namespace ConcatChain.Rewrite

variable {context : AssistContext} {change : Change} {text : Text}

/-- What a rewrite makes of a text. -/
theorem apply_eq (rewrite : Rewrite context change) {before between after : Text}
    (hanchor : rewrite.anchor.span.start = size before)
    (hconcat : rewrite.concat.span = ⟨size (before ++ between), size rewrite.concat.trimmed⟩) :
    change.apply (before ++ (between ++ (rewrite.concat.trimmed ++ after))) =
      before ++ (rewrite.resolution.hoists.flatMap (fun hoist =>
          hoist.text ++ Edit.separator context.parse.text rewrite.anchor.span.start) ++
        (between ++ (rewrite.heredoc ++ after))) := by
  have hchange := (Change.ofEdits_before context.parse.text rewrite.resolution.hoists (by
    show rewrite.anchor.span.start ≤ rewrite.concat.span.start
    rw [hanchor, hconcat, size_append]
    exact Nat.le_add_right _ _)).symm.trans rewrite.edits
  rw [Except.ok.injEq, hanchor, hconcat] at hchange
  rw [hanchor]
  exact (congrArg (fun (it : Change) => it.apply _) hchange.symm).trans
    (Change.apply_before _ _ before between _ after _)

/-- The anchor is a statement in a node that holds statements. -/
theorem anchor_isStatement (rewrite : Rewrite context change) :
    rewrite.anchor.kind.isStatement = true ∧
      rewrite.anchor.parent?.any (fun parent => parent.kind.holdsStatements) = true := by
  have hfound := List.find?_some rewrite.anchored
  rwa [Bool.and_eq_true] at hfound

theorem anchor_ne (rewrite : Rewrite context change) {kind : Kind}
    (hkind : kind.isStatement = false) : rewrite.anchor.kind ≠ kind := by
  rintro rfl
  exact absurd (rewrite.anchor_isStatement.1.symm.trans hkind) Bool.true_eq_false.mp

/-! ## Where it takes place -/

/-- Where in a file a rewrite takes place: the anchor fills a gap in the file, and the concatenation
    fills a gap in the anchor. -/
structure Site (rewrite : Rewrite context change) (text : Text) where
  outer : Frame
  inner : Frame
  root : (Parse.file text).root =
    .root .sourceFile (outer.fill [rewrite.anchor.tree] ++ [.token (Lexing.of text).last])
  children : rewrite.anchor.children = inner.fill [rewrite.concat.tree]
  anchor_bytes : rewrite.anchor.place.bytes = size (outer.front.flatMap Token.fullText)
  anchor_place : rewrite.anchor.place.tokens = outer.front.length
  concat_bytes : rewrite.concat.place.bytes =
    rewrite.anchor.place.bytes + size (inner.front.flatMap Token.fullText)
  concat_place : rewrite.concat.place.tokens =
    rewrite.anchor.place.tokens + inner.front.length
  parent : rewrite.anchor.parent?.map Node.kind = some (outer.holder?.getD .sourceFile)

/-- Every rewrite of a file without diagnostics has its place. -/
theorem exists_site (rewrite : Rewrite context change)
    (hclean : (Parse.file text).diagnostics = []) (hparse : context.parse = Parse.file text) :
    Nonempty (rewrite.Site text) := by
  have hroot : context.parse.root.parents = [] := by rw [hparse, Parse.parents_root hclean]
  have hancestors := rewrite.ancestors_subset hclean hparse
  have hanchor : rewrite.anchor ∈ rewrite.concat.ancestors :=
    List.mem_of_find?_eq_some rewrite.anchored
  -- The file is a frame around the anchor, and the anchor one around the chain.
  rcases Parse.exists_frame hclean (hparse ▸ hancestors hanchor) (rewrite.anchor_ne rfl) with
    ⟨outer, houter⟩
  rcases Node.frame_of_descendants
    (Node.mem_descendants_of_ancestor hroot (hancestors List.mem_cons_self) hanchor) (by
      rw [rewrite.concat_of_ancestors.2]
      exact (rewrite.anchor_ne rfl).symm) with ⟨inner, hinner⟩
  exact ⟨⟨outer, inner, houter.root, hinner.row, houter.bytes, houter.tokens, hinner.bytes,
    hinner.tokens, houter.parent⟩⟩

namespace Site

variable {rewrite : Rewrite context change} (site : rewrite.Site text)

/-- The anchor is in a node that holds statements. -/
theorem holder : (site.outer.holder?.getD .sourceFile).holdsStatements = true := by
  have hparent := site.parent
  rcases (Option.any_eq_true _ _).mp rewrite.anchor_isStatement.2 with ⟨parent, hsome, hholds⟩
  rw [hsome, Option.map_some, Option.some.injEq] at hparent
  rwa [← hparent]

/-- The tokens of the anchor. -/
theorem tokens_anchor : rewrite.anchor.tree.tokens =
    site.inner.front ++ (rewrite.concat.tree.tokens ++ site.inner.back) := by
  have htokens := congrArg Tree.tokensOf site.children
  rw [Tree.Frame.tokens_fill, Tree.tokensOf, Tree.tokensOf, List.append_nil] at htokens
  exact htokens

/-- The shape of the anchor. -/
theorem shape_anchor : rewrite.anchor.tree.shape =
    .node rewrite.anchor.kind (site.inner.fillShape [rewrite.concat.tree.shape]) := by
  rw [Node.tree, Tree.shape, site.children, Frame.shapes_fill]
  rfl

/-- What a file without diagnostics is around the place. -/
theorem file (hclean : (Parse.file text).diagnostics = []) :
    Grammar.DerivesFile (site.outer.fillShape [rewrite.anchor.tree.shape]) ∧
      (Lexing.of text).tokens =
        site.outer.front ++ (rewrite.anchor.tree.tokens ++ site.outer.back) :=
  Parse.derives_of_root hclean site.root

end Site

variable {rewrite : Rewrite context change}

/-! ## Around the concatenation -/

/-- The tokens at both ends of the concatenation, and the text behind the last token of the file. -/
structure Cut (site : rewrite.Site text) where
  first : Token
  final : Token
  rest : Text
  lexes : Lexes (site.outer.front ++ (site.inner.front ++ (rewrite.concat.tree.tokens ++
    (site.inner.back ++ site.outer.back)))) text rest
  ends : Trivia.Takes true (Lexing.of text).last.leading rest []
  last_eq : (Lexing.of text).last = ⟨(Lexing.of text).last.leading, .endOfFile, [], []⟩
  excerpt : rewrite.concat.tree.Excerpt
  first_eq : rewrite.concat.tree.tokens.head? = some first
  final_eq : rewrite.concat.tree.tokens.getLast? = some final
  first_kind : first.kind ≠ .unknown
  anchor_kind : ∃ word words, rewrite.anchor.tree.shape.words = word :: words ∧
    word.kind ≠ .unknown

theorem Site.exists_cut (site : rewrite.Site text) (hclean : (Parse.file text).diagnostics = [])
    (hparse : context.parse = Parse.file text) : Nonempty (Cut site) := by
  have hmem : rewrite.concat ∈ (Parse.file text).root.descendants :=
    hparse ▸ rewrite.ancestors_subset hclean hparse List.mem_cons_self
  have hanchor : rewrite.anchor ∈ (Parse.file text).root.descendants :=
    hparse ▸ rewrite.ancestors_subset hclean hparse (List.mem_of_find?_eq_some rewrite.anchored)
  have hexpr : rewrite.concat.kind.isExpr = true := by
    rw [rewrite.concat_of_ancestors.2]
    rfl
  have hexcerpt := Parse.excerpt_of_expr hclean hmem hexpr
  rcases Parse.clean_file_of_diagnostics hclean with ⟨_, _, hclean'⟩
  -- The text falls into the tokens ahead of the chain, its own, and those behind.
  rcases Lexing.lexes_of hclean'.errors with ⟨rest, hlexes, hend⟩
  have hlast := congrArg Lexing.last (hlexes.readFrom hend 0)
  rw [(site.file hclean).2, site.tokens_anchor] at hlexes
  simp only [List.append_assoc] at hlexes
  rcases hwords : rewrite.concat.tree.tokens with _ | ⟨first, more⟩
  · exact absurd hwords hexcerpt.ne_nil
  refine ⟨⟨first, rewrite.concat.tree.tokens.getLast hexcerpt.ne_nil, rest, hlexes, hend, hlast,
    hexcerpt, by rw [hwords]; rfl, List.getLast?_eq_some_getLast _, ?_,
    Parse.head_of_stmt hclean hanchor rewrite.anchor_isStatement.1⟩⟩
  -- An expression begins with a known word.
  rcases (Parse.standalone_of_expr hclean hmem hexpr).head_ne_unknown with
    ⟨word, words, hhead, hkind⟩
  rw [Tree.words_shape, hwords, List.map_cons, List.cons.injEq] at hhead
  exact fun hfirst => hkind (hhead.1 ▸ hfirst)

namespace Cut

variable {site : rewrite.Site text} (cut : Cut site)

/-- The concatenation stands between the tokens around it in the anchor and around the anchor. -/
theorem stands : rewrite.concat.Stands text cut.rest (site.outer.front ++ site.inner.front)
    (site.inner.back ++ site.outer.back) cut.first cut.final where
  lexes := by
    rw [List.append_assoc]
    exact cut.lexes
  bytes := by rw [site.concat_bytes, site.anchor_bytes, List.flatMap_append, size_append]
  first_eq := cut.first_eq
  final_eq := cut.final_eq

/-- The heredoc as a token between the trivia around the concatenation. -/
def literal : Token :=
  ⟨cut.first.leading, .heredocString, rewrite.heredoc, cut.final.trailing⟩

/-- The heredoc is read in place of the concatenation. -/
theorem lexes_heredoc (hapart : rewrite.concat.Apart text) :
    Lexes ((site.outer.front ++ site.inner.front) ++
        cut.literal :: (site.inner.back ++ site.outer.back))
      ((site.outer.front ++ site.inner.front).flatMap Token.fullText ++ (cut.first.leadingText ++
        (rewrite.heredoc ++ (cut.final.trailingText ++
          ((site.inner.back ++ site.outer.back).flatMap Token.fullText ++ cut.rest)))))
      cut.rest := by
  rcases hapart with ⟨hbefore, hbehind⟩
  rw [cut.stands.takeBytes_eq] at hbefore
  rw [cut.stands.dropBytes_eq] at hbehind
  exact cut.stands.lexes.heredoc cut.first_eq cut.final_eq cut.first_kind rewrite.closed hbefore
    hbehind

/-- The first token of the anchor with the heredoc in it. -/
theorem exists_next : ∃ next more between,
    site.inner.front ++ cut.literal :: site.inner.back = next :: more ∧ next.kind ≠ .unknown ∧
    site.inner.front.flatMap Token.fullText ++ cut.first.leadingText = next.leadingText ++ between ∧
    rewrite.anchor.span.start =
      size (site.outer.front.flatMap Token.fullText ++ next.leadingText) := by
  have hspan {head : Token} (hhead : rewrite.anchor.tree.tokens.head? = some head)
      (hkind : head.kind.isTrivia = false) : rewrite.anchor.span.start =
        size (site.outer.front.flatMap Token.fullText ++ head.leadingText) := by
    rw [Node.span_eq hhead hkind, site.anchor_bytes, size_append]
  have htokens := site.tokens_anchor
  -- If the anchor begins with the chain, the literal is its first token; otherwise the token it had
  -- stays first.
  rcases hfront : site.inner.front with _ | ⟨next, front⟩
  · refine ⟨_, _, [], rfl, Kind.noConfusion, (List.append_nil _).symm, @hspan cut.first ?_ ?_⟩
    · rw [htokens, hfront, List.nil_append, List.head?_append, cut.first_eq]
      rfl
    · exact cut.excerpt.kinds _ (List.mem_of_head? cut.first_eq)
  · refine ⟨next, _, next.text ++ (next.trailingText ++ (front.flatMap Token.fullText ++
      cut.first.leadingText)), rfl, ?_, ?_, hspan ?_ ?_⟩
    · rcases cut.anchor_kind with ⟨word, words, hwords, hkind⟩
      rw [Tree.words_shape, htokens, hfront, List.cons_append, List.map_cons, List.cons.injEq]
        at hwords
      exact fun hnext => hkind (hwords.1 ▸ hnext)
    · simp only [List.flatMap_cons, Token.fullText, List.append_assoc]
    · rw [htokens, hfront]
      rfl
    · refine Kind.isTrivia_of_isLexeme (cut.lexes.isLexeme next ?_)
      rw [hfront]
      exact List.mem_append_right _ (List.mem_append_left _ List.mem_cons_self)

/-- The new text is read into the tokens of the old one, with the hoists in front of the anchor and
    the heredoc in place of the concatenation. -/
theorem lexes_apply (hapart : rewrite.concat.Apart text)
    (hstmts : ∀ hoist ∈ rewrite.resolution.hoists, ∃ shape, hoist.IsStmt shape) :
    ∃ hoisted leading, List.Forall₂ Hoist.Becomes rewrite.resolution.hoists hoisted ∧
      Lexes (site.outer.front ++ (Tree.tokensOf hoisted ++ (Token.startWith leading
        (site.inner.front ++ cut.literal :: site.inner.back) ++ site.outer.back)))
        (change.apply text) cut.rest := by
  rcases cut.exists_next with ⟨next, more, between, hnext, hkind, hbetween, hstart⟩
  have htext := cut.stands.text_eq
  have hconcat := cut.stands.span_eq
  have hnew := cut.lexes_heredoc hapart
  -- In front of the heredoc, the text of the anchor begins behind the trivia of its first token.
  have hfront (behind : Text) : (site.outer.front ++ site.inner.front).flatMap Token.fullText ++
      (cut.first.leadingText ++ behind) =
        (site.outer.front.flatMap Token.fullText ++ next.leadingText) ++ (between ++ behind) := by
    rw [List.flatMap_append, List.append_assoc, ← List.append_assoc _ cut.first.leadingText,
      hbetween]
    simp only [List.append_assoc]
  have htokens : (site.outer.front ++ site.inner.front) ++
      cut.literal :: (site.inner.back ++ site.outer.back) =
        site.outer.front ++ next :: (more ++ site.outer.back) := by
    rw [List.append_assoc, ← List.cons_append, ← List.append_assoc site.inner.front, hnext]
    rfl
  have hbefore := hfront []
  rw [List.append_nil, List.append_nil] at hbefore
  rw [hbefore] at hconcat
  rw [hfront] at htext hnew
  rw [htokens, List.append_assoc] at hnew
  rcases hnew.hoisted rfl hkind hstmts
    (Edit.isSeparator context.parse.text rewrite.anchor.span.start) with
      ⟨hoisted, leading, hhoisted, hlexed⟩
  refine ⟨hoisted, leading, hhoisted, ?_⟩
  have happly := (congrArg change.apply htext).trans (rewrite.apply_eq hstart hconcat)
  rw [happly, hnext, List.append_assoc]
  exact hlexed

end Cut

/-! ## What stays -/

/-- The hoists are statements. -/
theorem isStmt_of_mem (rewrite : Rewrite context change)
    (hconverter : context.config.converter.ReadsCalls) :
    ∀ hoist ∈ rewrite.resolution.hoists, ∃ shape, hoist.IsStmt shape := by
  rcases hconverter _ _ rewrite.converted with ⟨call, hcall⟩
  rcases Resolution.ofFrom_of_resolve rewrite.resolved with ⟨_, hfrom⟩
  exact Resolution.isStmt_of_ofFrom hfrom (FormatCall.operands_of_parse hcall) rewrite.hoistsRead

namespace Site

variable (site : rewrite.Site text) {hoisted : List Tree} {changed : Tree}

/-- The anchor with a string literal in place of the concatenation. -/
def rebuilt (tok : Token) : Tree :=
  .node rewrite.anchor.kind (site.inner.fill [.node .stringLiteral [.token tok]])

/-- With the hoists in front of the anchor and a heredoc in place of the concatenation, a file is
    one. -/
theorem derives_rebuilt (hclean : (Parse.file text).diagnostics = []) {tok : Token}
    (htok : tok.kind = .heredocString)
    (hhoisted : List.Forall₂ Hoist.Becomes rewrite.resolution.hoists hoisted) :
    Grammar.DerivesFile
      (site.outer.fillShape (Tree.shapesOf hoisted ++ [(site.rebuilt tok).shape])) := by
  have hconcat : ∃ row, rewrite.concat.tree.shape = .node .concatExpr row :=
    ⟨_, by rw [← rewrite.concat_of_ancestors.2]; rfl⟩
  have hreplaces : Grammar.Replaces rewrite.concat.tree.shape
      (.node .stringLiteral [.word tok.word]) := by
    rcases hconcat with ⟨row, hconcat⟩
    rw [hconcat]
    exact .literal htok
  -- The literal takes the place of the chain, and the hoists come ahead of the anchor.
  let splice : Grammar.Splice := ⟨rewrite.concat.tree.shape, .node .stringLiteral [.word tok.word],
    rewrite.anchor.tree.shape, Tree.shapesOf hoisted, hreplaces, ⟨_, _, rfl⟩,
    Hoist.derived_hoisted hhoisted⟩
  have hedited : Grammar.Edited splice rewrite.anchor.tree.shape (site.rebuilt tok).shape := by
    rw [site.shape_anchor, rebuilt, Tree.shape, Frame.shapes_fill]
    exact .node (Grammar.EditedRow.fill splice site.inner)
  refine (site.file hclean).1.edited (Grammar.EditedStmts.of_frame hedited site.outer ?_)
  -- What holds the anchor holds statements, so there is room for the hoists.
  intro kind hkind
  have hholder := site.holder
  rwa [hkind] at hholder

/-- What a rewrite leaves as it was. In the gap of the file there are now the statements of the
    hoists, and behind them the anchor with the heredoc in place of the concatenation. -/
structure Keeps (parse : Parse) (hoisted : List Tree) (changed : Tree) : Prop where
  diagnostics : parse.diagnostics = []
  root : parse.root =
    .root .sourceFile (site.outer.fill (hoisted ++ [changed]) ++ [.token (Lexing.of text).last])
  hoists : List.Forall₂ (fun hoist tree => tree.kind = .exprStmt ∧ tree.trimmed = hoist.text)
    rewrite.resolution.hoists hoisted
  changed : ∃ tok leading, tok.kind = .heredocString ∧ tok.text = rewrite.heredoc ∧
    changed.shape = (site.rebuilt tok).shape ∧
    changed.tokens = Token.startWith leading (site.rebuilt tok).tokens

/-- Where nothing runs into the heredoc, everything around the anchor and within it stays. -/
theorem exists_keeps (hclean : (Parse.file text).diagnostics = [])
    (hparse : context.parse = Parse.file text) (hconverter : context.config.converter.ReadsCalls)
    (hapart : rewrite.concat.Apart text) :
    ∃ hoisted changed, site.Keeps (Parse.file (change.apply text)) hoisted changed := by
  rcases site.exists_cut hclean hparse with ⟨cut⟩
  rcases cut.lexes_apply hapart (rewrite.isStmt_of_mem hconverter) with
    ⟨hoisted, leading, hhoisted, hnew⟩
  -- The tokens of the new statement are put together to it.
  have hrebuilt : (site.rebuilt cut.literal).tokens =
      site.inner.front ++ cut.literal :: site.inner.back := Frame.tokens_fill site.inner
  rcases Tree.exists_of_words (site.rebuilt cut.literal).shape
    (Token.startWith leading (site.rebuilt cut.literal).tokens)
    (by rw [Token.word_startWith, Tree.words_shape]) with ⟨changed, hshape, htokens⟩
  generalize htrees : site.outer.fill (hoisted ++ [changed]) = trees
  have hderives : Grammar.DerivesFile (Tree.shapesOf trees) := by
    rw [← htrees, Frame.shapes_fill, Tree.shapesOf_append, Tree.shapesOf, hshape]
    exact site.derives_rebuilt hclean rfl hhoisted
  have hlexes : Lexes (Tree.tokensOf trees) (change.apply text) cut.rest := by
    rw [← htrees, Frame.tokens_fill, Frame.tokensOf_append, Tree.tokensOf, Tree.tokensOf, htokens,
      hrebuilt, List.append_nil, List.append_assoc]
    exact hnew
  -- So they are read as these trees, since there is only one way to read them.
  rcases Parse.file_of_trees hlexes cut.ends hderives with ⟨hdiagnostics, hroot⟩
  rw [← htrees] at hroot
  refine ⟨hoisted, changed, hdiagnostics, hroot.trans ?_, ?_, cut.literal, leading, rfl, rfl,
    hshape, htokens⟩
  · exact congrArg (fun last => Node.root .sourceFile (site.outer.fill _ ++ [Tree.token last]))
      cut.last_eq.symm
  · exact hhoisted.imp fun hoist tree hbecomes => ⟨hbecomes.kind, hbecomes.trimmed⟩

end Site

end ConcatChain.Rewrite

namespace SourceFile

/-- Where nothing next to the concatenation runs into the heredoc, the rewrite of a file without
    diagnostics gives another one. The node that holds the anchor has its old statements, and those
    of the hoists in front of the anchor; in the anchor only the concatenation is another one. -/
theorem statements_kept {config : AssistConfig} {file : SourceFile} {offset : Nat} {change : Change}
    {new : Text} (hclean : file.diagnostics = []) (hconverter : config.converter.ReadsCalls)
    (h : file.apply config offset .concatToHeredoc = .ok (change, new))
    (hapart : ∀ concat, ConcatChain.topmost? (file.context config offset) = some concat →
      concat.Apart file.text) :
    ∃ (rewrite : ConcatChain.Rewrite (file.context config offset) change)
        (site : rewrite.Site file.text) (hoisted : List Tree) (changed : Tree),
      site.Keeps (Parse.file new) hoisted changed := by
  rcases bind_eq_ok h with ⟨change', hchange, h⟩
  -- A new text that is worse than the old one is refused.
  have hnew : (change', change'.apply file.text) = (change, new) := by
    dsimp only at h
    split at h
    · rcases bind_eq_ok h with ⟨_, hthrow, _⟩
      exact absurd hthrow throw_ne_ok
    · exact Except.ok.inj h
  rw [Prod.mk.injEq] at hnew
  rcases hnew with ⟨rfl, rfl⟩
  rcases ConcatChain.rewrite_of_change hchange with ⟨rewrite⟩
  rcases rewrite.exists_site hclean rfl with ⟨site⟩
  exact ⟨rewrite, site, site.exists_keeps hclean rfl hconverter (hapart _ rewrite.topmost)⟩

/-- A call is hoisted in front of its statement, between two other ones. -/
theorem statements_kept_call :
    let file : SourceFile := ⟨"a.php", "<?php\nf();\n$x = \"a\" . g();\nh();\n".toList⟩
    file.diagnostics = [] ∧ ∃ change new,
      file.apply .default 20 .concatToHeredoc = .ok (change, new) ∧
      (∃ edit ∈ change.edits, edit.isInsertion = true) ∧
      ∃ (rewrite : ConcatChain.Rewrite (file.context .default 20) change)
          (site : rewrite.Site file.text) (hoisted : List Tree) (changed : Tree),
        site.Keeps (Parse.file new) hoisted changed := by
  intro file
  obtain ⟨hclean, hany, hcheck⟩ :
      file.diagnostics = [] ∧
      (file.apply .default 20 .concatToHeredoc).toOption.any
        (fun (change, _) => change.edits.any Edit.isInsertion) = true ∧
      (ConcatChain.topmost? (file.context .default 20)).all
        (fun concat => concat.Apart file.text) = true := by
    decide +kernel
  rcases eq_ok_of_any hany with ⟨⟨change, new⟩, hnew, hinserts⟩
  refine ⟨hclean, change, new, hnew, List.any_eq_true.mp hinserts,
    statements_kept hclean Converter.readsCalls_sprintf hnew ?_⟩
  intro concat hconcat
  rw [hconcat, Option.all_some, decide_eq_true_eq] at hcheck
  exact hcheck

/-- A name right behind a concatenation runs into the label of its heredoc, which then goes on up to
    a later line with the label. The next statement is lost, and there is no diagnostic. -/
theorem label_swallows :
    let file : SourceFile :=
      ⟨"a.php", "<?php\n$x = \"a\".$b['c']and f();\nHEREDOC_DELIMITER;\n".toList⟩
    file.diagnostics = [] ∧
      file.parse.root.childNodes.map Node.trimmed =
        ["$x = \"a\".$b['c']and f();".toList, "HEREDOC_DELIMITER;".toList] ∧
      ((file.apply .default 14 .concatToHeredoc).toOption.map fun (_, text) =>
        (Parse.file text).root.childNodes.map Node.trimmed) =
          some [("$x = <<<HEREDOC_DELIMITER\na\x7b$b['c']\x7d\nHEREDOC_DELIMITERand f();\n" ++
            "HEREDOC_DELIMITER;").toList] := by
  decide +kernel

end SourceFile

end PhpAssist

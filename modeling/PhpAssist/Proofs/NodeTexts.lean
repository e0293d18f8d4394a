import PhpAssist.Proofs.Edits
import PhpAssist.Proofs.Frames
import PhpAssist.Proofs.Productions
import PhpAssist.Proofs.SingleStatements

/-!
# The text around a node

A file without diagnostics is the tokens that were read, with their trivia, and what stands behind
the last of them. A node in it leaves a gap when it is taken out. The text in front of the gap ends
with the trivia in front of the node's first token, and the text behind it begins with those behind
its last one, so this is where the node's own text begins and ends.

To put a file together again from the other side it is enough to name its trees: where their tokens
are read from a text and their shapes are those of a file, the text is read as these trees and
nothing else.

## Main definitions

* `Node.FillsFile`: A node and the gap that it leaves in a file.
* `Node.Stands`: A node between the tokens in front of it and behind it.

## Theorems

* `Parse.exists_frame`: Every node of a file without diagnostics leaves a gap in it.
* `Node.Stands.text_eq`: The text around a node.
* `Parse.exists_stands`: Every statement stands between the tokens around its gap.
* `Parse.file_of_trees`: A text that is read as given trees.
-/

namespace PhpAssist

open PhpAssist.Tree (Frame)
open Text

/-! ## The gap in a file -/

/-- A node fills a gap in the file that a text is read as. -/
structure Node.FillsFile (node : Node) (text : Text) (frame : Frame) : Prop where
  root : (Parse.file text).root =
    .root .sourceFile (frame.fill [node.tree] ++ [.token (Lexing.of text).last])
  bytes : node.place.bytes = size (frame.front.flatMap Token.fullText)
  tokens : node.place.tokens = frame.front.length
  parent : node.parent?.map Node.kind = some (frame.holder?.getD .sourceFile)

/-- A node in front of a last token is in front of it. -/
theorem Node.mem_locateAll_of_concat {parents : List Node} {place : Place} {node : Node}
    {tok : Token} {row : List Tree}
    (h : .node node ∈ locateAll parents place (row ++ [Tree.token tok])) :
    .node node ∈ locateAll parents place row := by
  induction row generalizing place with
  | nil => exact absurd h (by simp only [List.nil_append, locateAll, locate, List.append_nil,
      List.mem_singleton, reduceCtorEq, not_false_eq_true])
  | cons tree row ih =>
    rw [List.cons_append, locateAll, List.mem_append] at h
    rw [locateAll, List.mem_append]
    exact h.imp_right ih

namespace Parse

variable {text rest : Text}

/-- Every node of a file without diagnostics but the file itself fills a gap in it. -/
theorem exists_frame (hclean : (file text).diagnostics = []) {node : Node}
    (hmem : node ∈ (file text).root.descendants) (hkind : node.kind ≠ .sourceFile) :
    ∃ frame, node.FillsFile text frame := by
  rcases clean_file_of_diagnostics hclean with ⟨_, _, hclean'⟩
  rcases hclean'.root with ⟨trees, htrees, _, _⟩
  let root : Node := .root .sourceFile (trees ++ [Tree.token (Lexing.of text).last])
  -- The node is neither the root nor the end of the file, so it stands among the trees.
  have hinner : .node node ∈ Node.locateAll root.ancestors root.place.inside trees := by
    rw [htrees, Node.mem_descendants, Node.subtree] at hmem
    rcases List.mem_cons.mp hmem with heq | hmem
    · injection heq with heq
      exact absurd (congrArg Node.kind heq) hkind
    · exact Node.mem_locateAll_of_concat hmem
  rcases Node.frame_of_locateAll trees hinner with ⟨frame, hframe⟩
  refine ⟨frame, by rw [htrees, hframe.row], hframe.bytes.trans (Nat.zero_add _),
    hframe.tokens.trans (Nat.zero_add _), ?_⟩
  rw [hframe.parent, ← Option.or_some]
  rfl

/-- What a file without diagnostics is around a tree. -/
theorem derives_of_root (hclean : (file text).diagnostics = []) {frame : Frame} {tree : Tree}
    (hroot : (file text).root =
      .root .sourceFile (frame.fill [tree] ++ [.token (Lexing.of text).last])) :
    Grammar.DerivesFile (frame.fillShape [tree.shape]) ∧
      (Lexing.of text).tokens = frame.front ++ (tree.tokens ++ frame.back) := by
  rcases clean_file_of_diagnostics hclean with ⟨row, hderives, hclean'⟩
  rcases hclean'.root with ⟨trees, htrees, htokens, hshapes⟩
  have hsame : trees = frame.fill [tree] := by
    have hrows := congrArg Node.children (htrees.symm.trans hroot)
    exact List.append_cancel_right hrows
  rw [hsame, Frame.shapes_fill] at hshapes
  rw [hsame, Frame.tokens_fill, Tree.tokensOf, Tree.tokensOf, List.append_nil] at htokens
  exact ⟨hshapes ▸ hderives, htokens.symm⟩

/-- A text with the tokens of trees that make up a file is read as these trees, since there is only
    one way to read it. -/
theorem file_of_trees {trees : List Tree} {leading : List Trivia}
    (hlexes : Lexes (Tree.tokensOf trees) text rest) (hends : Trivia.Takes true leading rest [])
    (hderives : Grammar.DerivesFile (Tree.shapesOf trees)) :
    (file text).diagnostics = [] ∧
      (file text).root = .root .sourceFile (trees ++ [.token ⟨leading, .endOfFile, [], []⟩]) := by
  have hclean := clean_file (by
    rw [Tree.wordsOf_shapesOf]
    exact hlexes.spells hends) hderives
  have hof := hlexes.readFrom hends 0
  rw [← Lexing.of] at hof
  rcases hclean.root with ⟨trees', hroot, htokens, hshapes⟩
  rw [hof] at hroot htokens
  rw [Tree.eq_of_shapes_of_tokens trees' trees hshapes htokens] at hroot
  exact ⟨hclean.diagnostics, hroot⟩

end Parse

/-! ## The text in front of a node and behind it -/

/-- A node stands in a text between two rows of tokens. -/
structure Node.Stands (node : Node) (text rest : Text) (front back : List Token)
    (first final : Token) : Prop where
  lexes : Lexes (front ++ (node.tree.tokens ++ back)) text rest
  bytes : node.place.bytes = size (front.flatMap Token.fullText)
  first_eq : node.tree.tokens.head? = some first
  final_eq : node.tree.tokens.getLast? = some final

namespace Node.Stands

variable {node : Node} {text rest : Text} {front back : List Token} {first final : Token}
  (h : node.Stands text rest front back first final)

include h

theorem kinds : ∀ tok ∈ node.tree.tokens, tok.kind.isTrivia = false := fun tok htok =>
  Kind.isTrivia_of_isLexeme (h.lexes.isLexeme tok
    (List.mem_append_right _ (List.mem_append_left _ htok)))

/-- The text around a node. -/
theorem text_eq : text = front.flatMap Token.fullText ++ (first.leadingText ++ (node.trimmed ++
    (final.trailingText ++ (back.flatMap Token.fullText ++ rest)))) := by
  have htrimmed : node.trimmed = Token.trimmed node.tree.tokens := Tree.trimmed_eq h.kinds
  rw [htrimmed]
  simpa only [List.flatMap_append, Token.fullText_eq_trimmed h.first_eq h.final_eq,
    List.append_assoc] using h.lexes.text_eq

theorem span_eq : node.span =
    ⟨size (front.flatMap Token.fullText ++ first.leadingText), size node.trimmed⟩ := by
  rw [Node.span_eq h.first_eq (h.kinds _ (List.mem_of_head? h.first_eq)), h.bytes, size_append]

theorem takeBytes_eq : takeBytes node.span.start text =
    front.flatMap Token.fullText ++ first.leadingText := by
  rw [h.span_eq]
  refine (congrArg (takeBytes _) h.text_eq).trans ?_
  rw [← List.append_assoc, takeBytes_size]

theorem dropBytes_eq : dropBytes node.span.stop text =
    final.trailingText ++ (back.flatMap Token.fullText ++ rest) := by
  rw [h.span_eq, Span.stop, ← size_append]
  refine (congrArg (dropBytes _) h.text_eq).trans ?_
  rw [← List.append_assoc, ← List.append_assoc, dropBytes_size]

end Node.Stands

namespace Parse

variable {text : Text} {node : Node}

/-- The first word of a statement is a token. -/
theorem head_of_stmt (hclean : (file text).diagnostics = [])
    (hmem : node ∈ (file text).root.descendants) (hstmt : node.kind.isStatement = true) :
    ∃ word words, node.tree.shape.words = word :: words ∧ word.kind ≠ .unknown := by
  have hne : node.tree ≠ (file text).root.tree := by
    rcases clean_file_of_diagnostics hclean with ⟨_, _, hclean'⟩
    rcases hclean'.root with ⟨_, hroot, _⟩
    rw [hroot]
    rintro heq
    have hkind : node.kind = .sourceFile := congrArg Tree.kind heq
    rw [hkind] at hstmt
    exact absurd hstmt Bool.false_ne_true
  rcases (production_of_mem hclean hmem hne).exists_stmt (by
    rw [Tree.kind_shape]
    exact hstmt) with ⟨look, hderived⟩
  exact hderived.head_ne_unknown

/-- A statement of a file without diagnostics stands between the tokens around its gap. -/
theorem exists_stands (hclean : (file text).diagnostics = [])
    (hmem : node ∈ (file text).root.descendants) (hstmt : node.kind.isStatement = true) :
    ∃ frame rest first final, node.FillsFile text frame ∧
      node.Stands text rest frame.front frame.back first final ∧ first.kind ≠ .unknown ∧
      Trivia.Takes true (Lexing.of text).last.leading rest [] := by
  rcases exists_frame hclean hmem (by
    rintro hkind
    rw [hkind] at hstmt
    exact absurd hstmt Bool.false_ne_true) with ⟨frame, hframe⟩
  rcases clean_file_of_diagnostics hclean with ⟨_, _, hclean'⟩
  rcases Lexing.lexes_of hclean'.errors with ⟨rest, hlexes, hends⟩
  rw [(derives_of_root hclean hframe.root).2] at hlexes
  rcases head_of_stmt hclean hmem hstmt with ⟨word, words, hwords, hkind⟩
  rw [Tree.words_shape] at hwords
  -- The first word of the statement is that of its first token.
  rcases List.map_eq_cons_iff.mp hwords with ⟨first, more, htokens, rfl, _⟩
  have hne : node.tree.tokens ≠ [] := by
    rw [htokens]
    exact List.cons_ne_nil _ _
  refine ⟨frame, rest, first, node.tree.tokens.getLast hne, hframe, ⟨hlexes, hframe.bytes, ?_,
    List.getLast?_eq_some_getLast hne⟩, hkind, hends⟩
  rw [htokens]
  rfl

end Parse

end PhpAssist

import PhpAssist.Proofs.Lexes
import PhpAssist.Proofs.Standalone
import PhpAssist.Tree.Node

/-!
# The stretch of a node

The tokens of a node stand next to each other among the tokens of its tree. Without the trivia at
its ends, the text of the node is the text of these tokens; and the shape of the node is found
among the shapes below the shape of the tree.

## Theorems

* `Tree.tokens_of_subtree`, `Tree.shape_of_subtree`: The tokens and the shape of a subtree.
* `Node.mem_subtrees`: The nodes below a node are its subtrees in place.
* `Tree.trimmed_eq`: The text of a tree without the trivia at its ends.
-/

namespace PhpAssist

namespace Tree

mutual

/-- The tokens of a subtree stand next to each other among those of the tree. -/
theorem tokens_of_subtree {sub : Tree} (tree : Tree) (h : sub ∈ tree.subtrees) :
    ∃ before after, tree.tokens = before ++ (sub.tokens ++ after) :=
  match tree with
  | .token _ => absurd h List.not_mem_nil
  | .node kind children => by
    rcases List.mem_cons.mp h with rfl | h
    · exact ⟨[], [], (List.append_nil _).symm⟩
    · exact tokens_of_subtreesOf children h

theorem tokens_of_subtreesOf {sub : Tree} (row : List Tree) (h : sub ∈ subtreesOf row) :
    ∃ before after, tokensOf row = before ++ (sub.tokens ++ after) :=
  match row with
  | [] => absurd h List.not_mem_nil
  | tree :: more => by
    rcases List.mem_append.mp h with h | h
    · rcases tokens_of_subtree tree h with ⟨before, after, heq⟩
      refine ⟨before, after ++ tokensOf more, ?_⟩
      rw [tokensOf, heq, List.append_assoc, List.append_assoc]
    · rcases tokens_of_subtreesOf more h with ⟨before, after, heq⟩
      refine ⟨tree.tokens ++ before, after, ?_⟩
      rw [tokensOf, heq, List.append_assoc]

end

mutual

/-- The shape of a subtree is a node of the shape of the tree. -/
theorem shape_of_subtree {sub : Tree} (tree : Tree) (h : sub ∈ tree.subtrees) :
    sub.shape ∈ tree.shape.nodes :=
  match tree with
  | .token _ => absurd h List.not_mem_nil
  | .node kind children => by
    rw [shape, Shape.nodes_node]
    rcases List.mem_cons.mp h with rfl | h
    · exact List.mem_cons_self
    · exact List.mem_cons_of_mem _ (shape_of_subtreesOf children h)

theorem shape_of_subtreesOf {sub : Tree} (row : List Tree) (h : sub ∈ subtreesOf row) :
    sub.shape ∈ Shape.nodesOf (shapesOf row) :=
  match row with
  | [] => absurd h List.not_mem_nil
  | tree :: more => by
    rw [shapesOf, Shape.nodesOf_cons, List.mem_append]
    rcases List.mem_append.mp h with h | h
    · exact .inl (shape_of_subtree tree h)
    · exact .inr (shape_of_subtreesOf more h)

end

@[simp] theorem kind_shape (tree : Tree) : tree.shape.kind = tree.kind := by
  cases tree <;> rfl

end Tree

namespace Node

mutual

/-- The nodes that a tree is located as are its subtrees. -/
theorem tree_locate (parents : List Node) (place : Place) (tree : Tree) :
    ((locate parents place tree).filterMap Element.node?).map Node.tree = tree.subtrees :=
  match tree with
  | .token _ => rfl
  | .node kind children => by
    rw [locate, List.filterMap_cons_some (f := Element.node?) rfl, List.map_cons,
      tree_locateAll _ place.inside children]
    rfl

theorem tree_locateAll (parents : List Node) (place : Place) (row : List Tree) :
    ((locateAll parents place row).filterMap Element.node?).map Node.tree = Tree.subtreesOf row :=
  match row with
  | [] => rfl
  | tree :: more => by
    rw [locateAll, List.filterMap_append, List.map_append, tree_locate parents place tree,
      tree_locateAll parents (place.after tree) more, Tree.subtreesOf]

end

/-- The nodes below a node are its subtrees in place. -/
theorem tree_descendants (node : Node) : node.descendants.map Node.tree = node.tree.subtrees := by
  rw [descendants, subtree, List.filterMap_cons_some (f := Element.node?) rfl, List.map_cons,
    tree_locateAll]
  rfl

theorem mem_subtrees {node below : Node} (h : below ∈ node.descendants) :
    below.tree ∈ node.tree.subtrees := by
  rw [← tree_descendants]
  exact List.mem_map_of_mem h

end Node

/-! ## Text without the trivia at its ends -/

namespace Tree

theorem isTrivia_trivia (trivia : Trivia) : trivia.piece.kind.isTrivia = true := by
  rcases trivia with ⟨kind, _⟩
  cases kind <;> rfl

theorem text_pieces (pieces : List Trivia) :
    (pieces.map Trivia.piece).flatMap Piece.text = pieces.flatMap Trivia.text := by
  rw [List.flatMap_map]
  rfl

/-- Trivia at the front of a row of pieces is dropped. -/
theorem dropTrivia_append (trivia : List Trivia) {piece : Piece} {more : List Piece}
    (h : piece.kind.isTrivia = false) :
    dropTrivia (trivia.map Trivia.piece ++ piece :: more) = piece :: more := by
  rw [dropTrivia, List.dropWhile_append_of_pos]
  · rw [List.dropWhile_cons, h]
    rfl
  · intro it hit
    rcases List.mem_map.mp hit with ⟨trivia, _, rfl⟩
    exact isTrivia_trivia trivia

theorem text_flatMap_pieces (tokens : List Token) :
    (tokens.flatMap Token.pieces).flatMap Piece.text = tokens.flatMap Token.fullText := by
  rw [List.flatMap_assoc]
  refine congrArg tokens.flatMap (funext fun tok => ?_)
  rw [Token.pieces, List.flatMap_append, List.flatMap_cons, text_pieces, text_pieces,
    Token.fullText, Token.leadingText, Token.trailingText, List.append_assoc]

/-- Without the trivia at the front the first token has none in front of it. -/
theorem dropTrivia_front {tokens : List Token}
    (h : ∀ tok ∈ tokens, tok.kind.isTrivia = false) :
    dropTrivia (tokens.flatMap Token.pieces) =
      (Token.startWith [] tokens).flatMap Token.pieces := by
  rcases tokens with _ | ⟨tok, more⟩
  · rfl
  rw [List.flatMap_cons, Token.pieces, List.append_assoc, List.cons_append,
    dropTrivia_append _ (h tok List.mem_cons_self)]
  rfl

/-- Without the trivia at the back the last token has none behind it. -/
theorem dropTrivia_back {tokens : List Token}
    (h : ∀ tok ∈ tokens, tok.kind.isTrivia = false) :
    (dropTrivia (tokens.flatMap Token.pieces).reverse).reverse =
      (Token.endWith [] tokens).flatMap Token.pieces := by
  rcases List.eq_nil_or_concat tokens with rfl | ⟨front, tok, rfl⟩
  · rfl
  rw [List.concat_eq_append] at *
  have htok := h tok (by simp only [List.mem_append, List.mem_singleton, or_true])
  rw [Token.endWith_append_singleton]
  simp only [List.flatMap_append, List.flatMap_singleton, Token.pieces, List.reverse_append,
    List.reverse_cons, List.append_assoc, ← List.map_reverse, List.map_nil]
  rw [List.singleton_append, dropTrivia_append _ htok]
  simp only [List.reverse_cons, List.reverse_append, List.reverse_reverse, List.map_reverse,
    List.append_assoc]

end Tree

theorem Token.endWith_startWith (leading trailing : List Trivia) (tokens : List Token) :
    endWith trailing (startWith leading tokens) = startWith leading (endWith trailing tokens) := by
  rcases tokens with _ | ⟨tok, _ | ⟨next, more⟩⟩ <;> rfl

/-- The text of a tree without the trivia at its ends is that of its tokens. -/
theorem Tree.trimmed_eq {tree : Tree} (h : ∀ tok ∈ tree.tokens, tok.kind.isTrivia = false) :
    tree.trimmed = Token.trimmed tree.tokens := by
  have hstart : ∀ tok ∈ Token.startWith [] tree.tokens, tok.kind.isTrivia = false := by
    rcases htokens : tree.tokens with _ | ⟨first, more⟩
    · exact fun _ h => absurd h List.not_mem_nil
    · rw [htokens] at h
      intro tok htok
      rcases List.mem_cons.mp htok with rfl | htok
      · exact h first List.mem_cons_self
      · exact h tok (List.mem_cons_of_mem _ htok)
  -- The trivia in front go with the first token, those behind with the last.
  rw [trimmed, pieces, dropTrivia_front h, dropTrivia_back hstart, text_flatMap_pieces,
    Token.endWith_startWith, Token.trimmed]

theorem Tree.trimmed_token {kind : Kind} {tok : Token} (h : tok.kind.isTrivia = false) :
    (Tree.node kind [.token tok]).trimmed = tok.text := by
  have hkinds : ∀ other ∈ (Tree.node kind [.token tok]).tokens, other.kind.isTrivia = false := by
    intro other hother
    rw [List.mem_singleton.mp hother]
    exact h
  rw [trimmed_eq hkinds]
  simp only [tokens, tokensOf, List.append_nil, Token.trimmed, Token.endWith, Token.startWith,
    List.flatMap_singleton, Token.fullText, Token.leadingText, Token.trailingText,
    List.flatMap_nil, List.nil_append]

end PhpAssist

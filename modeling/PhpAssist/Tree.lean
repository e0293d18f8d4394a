import PhpAssist.Token

/-!
# Trees

A tree is made of nodes, and its leaves are tokens. Since tokens own all the text, so does a
tree: its text is the text of its leaves from left to right, whatever the nesting.

A tree does not know where it stands. What depends on the place of a subtree in a file is in
`PhpAssist.Tree.Node`; what is here holds of a subtree wherever it is put.

## Main definitions

* `Tree`: A token, or a node with its children.
* `Tree.tokens`, `Tree.pieces`, `Tree.fullText`: The leaves, their pieces and their text.
* `Tree.trimmed`: The text without the trivia at both ends.
* `Tree.childNodes`, `Tree.childTokens`: The children of each sort.
* `Tree.subtrees`: A node and all nodes below it, parents before children.

## Theorems

* `Tree.tokens_node`: The leaves of a node are those of its children in order.
-/

namespace PhpAssist

/-- A token, or a node with its children. -/
inductive Tree where
  | token (token : Token)
  | node (kind : Kind) (children : List Tree)
  deriving Inhabited

namespace Tree

/-- The kind of a token or of a node. -/
def kind : Tree → Kind
  | .token tok => tok.kind
  | .node kind _ => kind

/-- The trees right below a node. A token has none. -/
def children : Tree → List Tree
  | .token _ => []
  | .node _ children => children

/-- A tree that is a node. -/
def isNode : Tree → Bool
  | .token _ => false
  | .node _ _ => true

/-- The token that a tree is. -/
def token? : Tree → Option Token
  | .token tok => some tok
  | .node _ _ => none

/-- The children that are nodes. -/
def childNodes (tree : Tree) : List Tree := tree.children.filter isNode

/-- The children that are tokens. -/
def childTokens (tree : Tree) : List Token := tree.children.filterMap token?

/-- The first child token that satisfies `p`. -/
def childToken? (p : Kind → Bool) (tree : Tree) : Option Token :=
  tree.childTokens.find? fun tok => p tok.kind

mutual

/-- The leaves, from left to right. -/
def tokens : Tree → List Token
  | .token tok => [tok]
  | .node _ children => tokensOf children

/-- The leaves of a row of trees. -/
def tokensOf : List Tree → List Token
  | [] => []
  | tree :: more => tree.tokens ++ tokensOf more

end

mutual

/-- A node and all nodes below it, parents before children. A token has none. -/
def subtrees : Tree → List Tree
  | .token _ => []
  | .node kind children => .node kind children :: subtreesOf children

/-- The nodes of a row of trees. -/
def subtreesOf : List Tree → List Tree
  | [] => []
  | tree :: more => tree.subtrees ++ subtreesOf more

end

theorem tokensOf_eq_flatMap (trees : List Tree) : tokensOf trees = trees.flatMap tokens := by
  induction trees with
  | nil => rfl
  | cons tree more ih => rw [tokensOf, ih, List.flatMap_cons]

/-- The leaves of a node are those of its children in order. -/
theorem tokens_node (kind : Kind) (children : List Tree) :
    (Tree.node kind children).tokens = children.flatMap tokens := by
  rw [tokens, tokensOf_eq_flatMap]

theorem subtreesOf_eq_flatMap (trees : List Tree) :
    subtreesOf trees = trees.flatMap subtrees := by
  induction trees with
  | nil => rfl
  | cons tree more ih => rw [subtreesOf, ih, List.flatMap_cons]

/-- The pieces of the leaves. -/
def pieces (tree : Tree) : List Piece := tree.tokens.flatMap Token.pieces

/-- The text of the leaves, trivia included. -/
def fullText (tree : Tree) : Text := tree.tokens.flatMap Token.fullText

/-- The number of bytes, trivia included. -/
def size (tree : Tree) : Nat := Text.size tree.fullText

/-- The number of nodes. -/
def nodeCount (tree : Tree) : Nat := tree.subtrees.length

/-- The leaves that are not trivia. A parse has no other leaves. -/
def significant (tree : Tree) : List Token := tree.tokens.filter (!·.kind.isTrivia)

/-- Drops the trivia at the front of a row of pieces. -/
def dropTrivia (pieces : List Piece) : List Piece := pieces.dropWhile (·.kind.isTrivia)

/-- The text without the trivia at both ends. Trivia between tokens stays. -/
def trimmed (tree : Tree) : Text :=
  (dropTrivia (dropTrivia tree.pieces).reverse).reverse.flatMap Piece.text

/-- The number of bytes of the trivia at the front. -/
def leadingSize (tree : Tree) : Nat :=
  Text.size ((tree.pieces.takeWhile (·.kind.isTrivia)).flatMap Piece.text)

end Tree

end PhpAssist

import PhpAssist.Tree

/-!
# Nodes in place

A subtree alone does not say where it stands. A node in place does: how much of its tree lies
before it, and which nodes enclose it. How much lies before something is counted three ways at
once, in bytes, in nodes and in tokens; the bytes give its offset, and the counts give it a
number that no other node or token of the tree has.

## Main definitions

* `Place`: How much of a tree lies before a point.
* `Node`: A node in place, with the nodes around it.
* `Leaf`: A token in place, with the nodes around it.
* `Node.subtree`: A node and everything below it, parents before children.
* `Node.elements`, `Node.childNodes`: The children in place.
* `Node.span`, `Node.fullSpan`: Where a node stands, without and with the trivia at its ends.
-/

namespace PhpAssist

/-- How much of a tree lies before a point. -/
structure Place where
  bytes : Nat
  nodes : Nat
  tokens : Nat
  deriving DecidableEq

namespace Place

/-- The place where a tree begins. -/
def origin : Place := ⟨0, 0, 0⟩

/-- The place behind a subtree that begins here. -/
def after (place : Place) (tree : Tree) : Place :=
  ⟨place.bytes + tree.size, place.nodes + tree.nodeCount, place.tokens + tree.tokens.length⟩

/-- The place of the first child of a node that begins here. -/
def inside (place : Place) : Place := { place with nodes := place.nodes + 1 }

end Place

/-- A node in place. `parents` are the nodes around it, the innermost first. -/
structure Node where
  kind : Kind
  children : List Tree
  place : Place
  parents : List Node

/-- A token in place. `parents` are the nodes around it, the innermost first. -/
structure Leaf where
  token : Token
  place : Place
  parents : List Node

/-- Something in place: a node or a token. -/
inductive Element where
  | node (node : Node)
  | leaf (leaf : Leaf)

namespace Element

/-- The node that a child is. -/
def node? : Element → Option Node
  | .node it => some it
  | .leaf _ => none

/-- The leaf that a child is. -/
def leaf? : Element → Option Leaf
  | .node _ => none
  | .leaf it => some it

end Element

namespace Leaf

/-- The kind of the token of a leaf. -/
def kind (leaf : Leaf) : Kind := leaf.token.kind

/-- A leaf that is trivia. -/
def isTrivia (leaf : Leaf) : Bool := leaf.kind.isTrivia

/-- The number of the token among the tokens of its tree. -/
def number (leaf : Leaf) : Nat := leaf.place.tokens

/-- Where the token stands, without its trivia. -/
def span (leaf : Leaf) : Span := leaf.token.spanAt leaf.place.bytes

/-- Where the token and its trivia stand. -/
def fullSpan (leaf : Leaf) : Span := leaf.token.fullSpanAt leaf.place.bytes

/-- Pieces of trivia in place, the first of them at `offset`. -/
def placeTrivia : Nat → List Trivia → List (TriviaKind × Span)
  | _, [] => []
  | offset, trivia :: more =>
    let size := Text.size trivia.text
    (trivia.kind, ⟨offset, size⟩) :: placeTrivia (offset + size) more

/-- The trivia before the token, in place. -/
def leading (leaf : Leaf) : List (TriviaKind × Span) :=
  placeTrivia leaf.place.bytes leaf.token.leading

/-- The trivia behind the token, in place. -/
def trailing (leaf : Leaf) : List (TriviaKind × Span) :=
  placeTrivia leaf.span.stop leaf.token.trailing

end Leaf

namespace Node

/-- The root of a tree. -/
def root (kind : Kind) (children : List Tree) : Node := ⟨kind, children, .origin, []⟩

/-- The subtree under the node. -/
def tree (node : Node) : Tree := .node node.kind node.children

/-- The number of the node among the nodes of its tree, parents before children. -/
def number (node : Node) : Nat := node.place.nodes

/-- Whether two nodes of one tree are the same node. -/
def same (a b : Node) : Bool := a.number == b.number

/-- The node right around a node. -/
def parent? (node : Node) : Option Node := node.parents.head?

/-- The node and the nodes around it, the innermost first. -/
def ancestors (node : Node) : List Node := node :: node.parents

mutual

/-- A tree that begins at a place and everything below it. -/
def locate (parents : List Node) (place : Place) : Tree → List Element
  | .token token => [.leaf ⟨token, place, parents⟩]
  | .node kind children =>
    .node ⟨kind, children, place, parents⟩ ::
      locateAll (⟨kind, children, place, parents⟩ :: parents) place.inside children

/-- A row of trees that begins at a place and everything below them. -/
def locateAll (parents : List Node) (place : Place) : List Tree → List Element
  | [] => []
  | tree :: more => locate parents place tree ++ locateAll parents (place.after tree) more

end

/-- The node and everything below it, parents before children. -/
def subtree (node : Node) : List Element :=
  .node node :: locateAll node.ancestors node.place.inside node.children

/-- The node and all nodes below it, parents before children. -/
def descendants (node : Node) : List Node := node.subtree.filterMap Element.node?

/-- The tokens below the node, from left to right. -/
def leaves (node : Node) : List Leaf := node.subtree.filterMap Element.leaf?

/-- The tokens below the node that are not trivia. -/
def significant (node : Node) : List Leaf := node.leaves.filter (!·.isTrivia)

/-- A row of children in place. -/
def placeChildren (parents : List Node) : Place → List Tree → List Element
  | _, [] => []
  | place, .token token :: more =>
    .leaf ⟨token, place, parents⟩ :: placeChildren parents (place.after (.token token)) more
  | place, .node kind children :: more =>
    .node ⟨kind, children, place, parents⟩ ::
      placeChildren parents (place.after (.node kind children)) more

/-- The children in place. -/
def elements (node : Node) : List Element :=
  placeChildren node.ancestors node.place.inside node.children

/-- The children that are nodes, in place. -/
def childNodes (node : Node) : List Node := node.elements.filterMap Element.node?

/-- The children that are tokens, in place. -/
def childLeaves (node : Node) : List Leaf := node.elements.filterMap Element.leaf?

/-- The first child token that satisfies `p`. -/
def childLeaf? (p : Kind → Bool) (node : Node) : Option Leaf :=
  node.childLeaves.find? fun leaf => p leaf.kind

/-- The first leaf in a node that is no trivia. -/
def firstLeaf? (node : Node) : Option Leaf := node.significant.head?

/-- The last leaf in a node that is no trivia. -/
def lastLeaf? (node : Node) : Option Leaf := node.significant.getLast?

/-- Where the node stands, its trivia included. -/
def fullSpan (node : Node) : Span := ⟨node.place.bytes, node.tree.size⟩

/-- The text of the node without the trivia at both ends. -/
def trimmed (node : Node) : Text := node.tree.trimmed

/-- Where the node stands, without the trivia at both ends. A node of nothing but trivia is an
    empty stretch where it begins. -/
def span (node : Node) : Span :=
  if node.tree.pieces.all (·.kind.isTrivia) then .empty node.place.bytes
  else ⟨node.place.bytes + node.tree.leadingSize, Text.size node.trimmed⟩

end Node

namespace Leaf

/-- The root of the tree the token belongs to. -/
def root? (leaf : Leaf) : Option Node := leaf.parents.getLast?

/-- The next token of the tree that is not trivia. -/
def next? (leaf : Leaf) : Option Leaf :=
  leaf.root?.bind fun root => root.significant.find? fun other => leaf.number < other.number

end Leaf

end PhpAssist

import PhpAssist.Tree.Node

/-!
# Walking a tree

A walk visits the nodes below a node one at a time and tells when each is entered and left, so
that it can be stopped at any point. It keeps two stacks, with a place in each for every node that
was entered and not left: one has the child nodes that are still to come, the other the node.

## Main definitions

* `WalkEvent`: A node is entered or left.
* `Walk`: A walk under way.
* `Walk.next?`: The next event.
* `Walk.take`: The next few events.
* `Node.preorder`: All events of the walk over a node.
-/

namespace PhpAssist

/-- A node is entered or left. -/
inductive WalkEvent where
  | enter (node : Node)
  | leave (node : Node)

/-- A walk under way: the node to begin with, as long as the walk has not begun, the child nodes to
    come of the nodes that were entered, and these nodes, the latest first. -/
structure Walk where
  pending : Option Node
  coming : List (List Node)
  entered : List Node

namespace Walk

/-- A walk in front of a node. -/
def begin (node : Node) : Walk := ⟨some node, [], []⟩

/-- The walk that has come to its end. -/
def ended : Walk := ⟨none, [], []⟩

/-- The next event, and the walk behind it. The stacks are of one height, so that there is a node
    to leave when no more of its child nodes come. -/
def next? (walk : Walk) : Option (WalkEvent × Walk) :=
  match walk.coming with
  | [] =>
    walk.pending.map fun node => (.enter node, ⟨none, [node.childNodes], node :: walk.entered⟩)
  | (child :: more) :: outer =>
    some (.enter child,
      { walk with coming := child.childNodes :: more :: outer, entered := child :: walk.entered })
  | [] :: outer =>
    match walk.entered with
    | [] => none
    | node :: entered => some (.leave node, { walk with coming := outer, entered })

/-- The next `count` events, or fewer when the walk ends before. -/
def take : Nat → Walk → List WalkEvent
  | 0, _ => []
  | count + 1, walk =>
    match walk.next? with
    | none => []
    | some (event, walk) => event :: take count walk

end Walk

/-- All events of the walk over a node. Every node is entered once and left once, which bounds
    their number. -/
def Node.preorder (node : Node) : List WalkEvent :=
  (Walk.begin node).take (2 * node.tree.nodeCount)

end PhpAssist

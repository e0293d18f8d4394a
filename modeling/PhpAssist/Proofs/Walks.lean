import PhpAssist.Proofs.Places
import PhpAssist.Tree.Walk

/-!
# Walks and listings

A walk keeps its place in two stacks and looks at the top of them. What it gives is the recursive
listing: a node is entered, its child nodes are listed in order, and it is left.

Neither stack alone says how deep the walk is, and a walk that took one off without the other would
stop in the middle or leave the wrong node. What carries the proof is therefore told of both
together: going through the nodes on top of the one stack gives their listings and then finds both
as they were below. The induction is on the trees of a row, with anything below on the stacks.

## Main definitions

* `Node.listing`: The events of a node by recursion.
* `Nested`: Events in which what is entered last is left first.
* `Walk.Emits`: A walk gives some events and is then another walk.

## Theorems

* `Node.listing_eq`: The listing of a node is made of those of its child nodes.
* `Node.entered_listing`, `Node.left_listing`: What is entered and what is left.
* `Node.number_descendants`: How the nodes below a node are numbered.
* `Walk.emits_row`: Going through the nodes on top of a stack.
* `Node.preorder_eq`: The events of a walk are the listing.
-/

namespace PhpAssist

namespace WalkEvent

/-- The node that is entered. -/
def entered? : WalkEvent → Option Node
  | .enter node => some node
  | .leave _ => none

/-- The node that is left. -/
def left? : WalkEvent → Option Node
  | .enter _ => none
  | .leave node => some node

theorem length_eq (events : List WalkEvent) :
    events.length = (events.filterMap entered?).length + (events.filterMap left?).length := by
  induction events with
  | nil => rfl
  | cons event events ih =>
    cases event with
    | enter node =>
      rw [List.filterMap_cons_some (f := entered?) rfl, List.filterMap_cons_none (f := left?) rfl]
      simp only [List.length_cons, ih]
      omega
    | leave node =>
      rw [List.filterMap_cons_none (f := entered?) rfl, List.filterMap_cons_some (f := left?) rfl]
      simp only [List.length_cons, ih]
      omega

end WalkEvent

/-- Events in which every node that is entered is left again, the one entered last first. -/
inductive Nested : List WalkEvent → Prop
  | nil : Nested []
  | around (node : Node) {inside behind : List WalkEvent} (hinside : Nested inside)
      (hbehind : Nested behind) : Nested (.enter node :: (inside ++ .leave node :: behind))

theorem Nested.append {events more : List WalkEvent} (h : Nested events) (hmore : Nested more) :
    Nested (events ++ more) := by
  induction h with
  | nil => exact hmore
  | @around node inside behind hinside _ _ ih =>
    have hwhole := Nested.around node hinside ih
    rw [List.cons_append, List.append_assoc, List.cons_append]
    exact hwhole

namespace Node

/-! ## The recursive listing -/

mutual

/-- The events of a tree that begins at a place. A node is entered, its children are gone through
    from left to right, and it is left. -/
def listTree (parents : List Node) (place : Place) : Tree → List WalkEvent
  | .token _ => []
  | .node kind children =>
    .enter ⟨kind, children, place, parents⟩ ::
      (listRow (⟨kind, children, place, parents⟩ :: parents) place.inside children ++
        [.leave ⟨kind, children, place, parents⟩])

/-- The events of a row of trees that begins at a place. -/
def listRow (parents : List Node) (place : Place) : List Tree → List WalkEvent
  | [] => []
  | tree :: more => listTree parents place tree ++ listRow parents (place.after tree) more

end

/-- The events of a node and everything below it. -/
def listing (node : Node) : List WalkEvent := listTree node.parents node.place node.tree

/-- The nodes of a row in place. -/
def rowNodes (parents : List Node) (place : Place) (row : List Tree) : List Node :=
  (placeChildren parents place row).filterMap Element.node?

theorem rowNodes_node (parents : List Node) (place : Place) (kind : Kind)
    (children more : List Tree) : rowNodes parents place (.node kind children :: more) =
      ⟨kind, children, place, parents⟩ ::
        rowNodes parents (place.after (.node kind children)) more := rfl

theorem listRow_eq (parents : List Node) (place : Place) (row : List Tree) :
    listRow parents place row = (rowNodes parents place row).flatMap listing := by
  induction row generalizing place with
  | nil => rfl
  | cons tree more ih =>
    rw [listRow, ih]
    cases tree with
    | token tok => rfl
    | node kind children => rw [rowNodes_node, List.flatMap_cons]; rfl

/-- A node is entered, then come the events of its child nodes, and it is left. -/
theorem listing_eq (node : Node) : node.listing =
    .enter node :: (node.childNodes.flatMap listing ++ [WalkEvent.leave node]) := by
  have hrow := listRow_eq node.ancestors node.place.inside node.children
  rcases node with ⟨kind, children, place, parents⟩
  rw [listing, tree, listTree]
  exact congrArg (fun events => WalkEvent.enter _ :: (events ++ [WalkEvent.leave _])) hrow

mutual

theorem nested_listTree (parents : List Node) (place : Place) (tree : Tree) :
    Nested (listTree parents place tree) :=
  match tree with
  | .token _ => .nil
  | .node _ children => .around _ (nested_listRow _ _ children) .nil

theorem nested_listRow (parents : List Node) (place : Place) (row : List Tree) :
    Nested (listRow parents place row) :=
  match row with
  | [] => .nil
  | tree :: more => (nested_listTree parents place tree).append (nested_listRow parents _ more)

end

mutual

/-- Nodes are entered in the order in which they are located. -/
theorem entered_listTree (parents : List Node) (place : Place) (tree : Tree) :
    (listTree parents place tree).filterMap WalkEvent.entered? =
      (locate parents place tree).filterMap Element.node? :=
  match tree with
  | .token _ => rfl
  | .node kind children => by
    have hchildren := entered_listRow (⟨kind, children, place, parents⟩ :: parents) place.inside
      children
    rw [listTree, locate, List.filterMap_cons_some (f := WalkEvent.entered?) rfl,
      List.filterMap_cons_some (f := Element.node?) rfl, List.filterMap_append, hchildren]
    exact congrArg _ (List.append_nil _)

theorem entered_listRow (parents : List Node) (place : Place) (row : List Tree) :
    (listRow parents place row).filterMap WalkEvent.entered? =
      (locateAll parents place row).filterMap Element.node? :=
  match row with
  | [] => rfl
  | tree :: more => by
    rw [listRow, locateAll, List.filterMap_append, List.filterMap_append,
      entered_listTree parents place tree, entered_listRow parents (place.after tree) more]

end

mutual

/-- Every node that is located is left, though in another order. -/
theorem left_listTree (parents : List Node) (place : Place) (tree : Tree) :
    ((listTree parents place tree).filterMap WalkEvent.left?).Perm
      ((locate parents place tree).filterMap Element.node?) :=
  match tree with
  | .token _ => .nil
  | .node kind children => by
    have hchildren := left_listRow (⟨kind, children, place, parents⟩ :: parents) place.inside
      children
    rw [listTree, locate, List.filterMap_cons_none (f := WalkEvent.left?) rfl,
      List.filterMap_cons_some (f := Element.node?) rfl, List.filterMap_append]
    exact (List.perm_append_comm.trans (hchildren.cons _))

theorem left_listRow (parents : List Node) (place : Place) (row : List Tree) :
    ((listRow parents place row).filterMap WalkEvent.left?).Perm
      ((locateAll parents place row).filterMap Element.node?) :=
  match row with
  | [] => .nil
  | tree :: more => by
    rw [listRow, locateAll, List.filterMap_append, List.filterMap_append]
    exact (left_listTree parents place tree).append (left_listRow parents _ more)

end

theorem entered_listing (node : Node) :
    node.listing.filterMap WalkEvent.entered? = node.descendants := by
  rw [listing, entered_listTree, locate_tree, descendants]

theorem left_listing (node : Node) :
    (node.listing.filterMap WalkEvent.left?).Perm node.descendants := by
  have hleft := left_listTree node.parents node.place node.tree
  rwa [locate_tree] at hleft

theorem length_descendants (node : Node) : node.descendants.length = node.tree.nodeCount := by
  rw [descendants, ← locate_tree, length_locate]

theorem length_listing (node : Node) : node.listing.length = 2 * node.tree.nodeCount := by
  rw [WalkEvent.length_eq, entered_listing, node.left_listing.length_eq, length_descendants]
  omega

/-- Nodes are numbered in the order in which they stand below a node, without a gap. -/
theorem number_descendants (node : Node) :
    node.descendants.map number = List.range' node.number node.tree.nodeCount := by
  -- A node is numbered by how many were located before it.
  refine List.ext_getElem? fun i => ?_
  rw [List.getElem?_map]
  by_cases hi : i < node.descendants.length
  · have hget := List.getElem?_eq_getElem hi
    have hnumber := number_of_getElem? hget
    rw [length_descendants] at hi
    rw [hget, List.getElem?_range' hi, Option.map_some, hnumber, Nat.one_mul]
  · rw [List.getElem?_eq_none (Nat.le_of_not_lt hi), Option.map_none, List.getElem?_eq_none]
    rw [List.length_range', ← length_descendants]
    exact Nat.le_of_not_lt hi

end Node

namespace Walk

/-! ## The walk -/

/-- A walk gives some events and is then another walk. -/
inductive Emits : Walk → List WalkEvent → Walk → Prop
  | stop (walk : Walk) : Emits walk [] walk
  | step {walk next last : Walk} {event : WalkEvent} {events : List WalkEvent}
      (h : walk.next? = some (event, next)) (hmore : Emits next events last) :
      Emits walk (event :: events) last

theorem Emits.trans {walk between last : Walk} {events more : List WalkEvent}
    (h : Emits walk events between) (hmore : Emits between more last) :
    Emits walk (events ++ more) last := by
  induction h with
  | stop => exact hmore
  | step hnext _ ih => exact .step hnext (ih hmore)

/-- A walk that is over after some events gives them and no others. -/
theorem Emits.take {walk last : Walk} {events : List WalkEvent} (h : Emits walk events last)
    (hlast : last.next? = none) {count : Nat} (hcount : events.length ≤ count) :
    walk.take count = events := by
  induction h generalizing count with
  | stop walk =>
    cases count with
    | zero => rfl
    | succ count => rw [Walk.take, hlast]
  | @step walk next last event events hnext _ ih =>
    cases count with
    | zero => exact absurd hcount (Nat.not_succ_le_zero _)
    | succ count =>
      rw [Walk.take, hnext]
      exact congrArg (event :: ·) (ih hlast (Nat.le_of_succ_le_succ hcount))

/-- Going through a row of trees takes the nodes of the row off the top of the one stack, and leaves
    both stacks as they were below that. -/
theorem emits_row (pending : Option Node) (coming : List (List Node)) (entered parents : List Node)
    (place : Place) (row : List Tree) :
    Emits ⟨pending, Node.rowNodes parents place row :: coming, entered⟩
      (Node.listRow parents place row) ⟨pending, [] :: coming, entered⟩ :=
  match row with
  | [] => .stop _
  | .token tok :: more => emits_row pending coming entered parents (place.after (.token tok)) more
  | .node kind children :: more => by
    rw [Node.rowNodes_node, Node.listRow, Node.listTree]
    -- The node is entered, and what is below it is gone through above the rest of the row.
    have hbelow := emits_row pending
      (Node.rowNodes parents (place.after (.node kind children)) more :: coming)
      (⟨kind, children, place, parents⟩ :: entered) (⟨kind, children, place, parents⟩ :: parents)
      place.inside children
    have hmore := emits_row pending coming entered parents (place.after (.node kind children)) more
    rw [List.cons_append, List.append_assoc]
    exact .step rfl (hbelow.trans (.step rfl hmore))
termination_by sizeOf row

/-- The walk over a node gives the events of the node, and then it is over. -/
theorem emits_listing (node : Node) : Emits (.begin node) node.listing .ended := by
  have hbelow := emits_row none [] [node] node.ancestors node.place.inside node.children
  rcases node with ⟨kind, children, place, parents⟩
  rw [Node.listing, Node.tree, Node.listTree]
  exact .step rfl (hbelow.trans (.step rfl (.stop _)))

theorem next?_ended : ended.next? = none := rfl

end Walk

/-- The events of the walk over a node are the recursive listing of the node. -/
theorem Node.preorder_eq (node : Node) : node.preorder = node.listing :=
  (Walk.emits_listing node).take Walk.next?_ended (Nat.le_of_eq node.length_listing)

end PhpAssist

import PhpAssist.Proofs.Stretches

/-!
# Nodes of one tree

Whatever is reached from a node of a tree, going up or down, is a node of the same tree: its
children, the nodes around it, and the nodes around its tokens. And a number belongs to one node
only, since it counts the nodes that come before.

## Main definitions

* `Element.parents`: The nodes around something in place.

## Theorems

* `Node.subtree_subset`, `Node.elements_subset`: What is below a node of a tree is in the tree.
* `Node.mem_descendants_of_ancestor`: A node is below the nodes around it.
* `Node.parents_mem`: The nodes around something in a tree are in the tree.
* `Node.eq_of_same`: Two nodes of one tree with one number are the same node.
-/

namespace PhpAssist

/-- The nodes around something in place, the innermost first. -/
def Element.parents : Element → List Node
  | .node it => it.parents
  | .leaf it => it.parents

namespace Node

/-! ## Down and up -/

mutual

/-- What is below a node of a tree is in the tree. -/
theorem locateAll_subset_locate {parents : List Node} {place : Place} {node : Node} (tree : Tree)
    (h : .node node ∈ locate parents place tree) :
    locateAll node.ancestors node.place.inside node.children ⊆ locate parents place tree :=
  match tree with
  | .token _ => absurd h (by simp only [locate, List.mem_singleton, reduceCtorEq,
      not_false_eq_true])
  | .node kind children => by
    rw [locate] at h ⊢
    rcases List.mem_cons.mp h with heq | h
    · injection heq with heq
      rw [heq]
      exact List.subset_cons_self _ _
    · exact List.Subset.trans (locateAll_subset_locateAll children h) (List.subset_cons_self _ _)

theorem locateAll_subset_locateAll {parents : List Node} {place : Place} {node : Node}
    (row : List Tree) (h : .node node ∈ locateAll parents place row) :
    locateAll node.ancestors node.place.inside node.children ⊆ locateAll parents place row :=
  match row with
  | [] => absurd h List.not_mem_nil
  | tree :: more => by
    rw [locateAll] at h ⊢
    rcases List.mem_append.mp h with h | h
    · exact List.Subset.trans (locateAll_subset_locate tree h) (List.subset_append_left _ _)
    · exact List.Subset.trans (locateAll_subset_locateAll more h) (List.subset_append_right _ _)

end

/-- What is below a node of a tree is in the tree. -/
theorem subtree_subset {root node : Node} (h : .node node ∈ root.subtree) :
    node.subtree ⊆ root.subtree := by
  rw [subtree] at h
  rcases List.mem_cons.mp h with heq | hmem
  · injection heq with heq
    rw [heq]
    exact List.Subset.refl _
  · intro element helement
    rcases List.mem_cons.mp helement with rfl | helement
    · exact h
    · exact List.mem_cons_of_mem _ (locateAll_subset_locateAll root.children hmem helement)

/-- The children in place are among everything below. -/
theorem placeChildren_subset (parents : List Node) (place : Place) (row : List Tree) :
    placeChildren parents place row ⊆ locateAll parents place row := by
  induction row generalizing place with
  | nil => exact List.Subset.refl _
  | cons tree more ih =>
    intro element helement
    rw [locateAll, List.mem_append]
    -- Either way the element stands first among those of its tree.
    rcases tree with tok | ⟨kind, children⟩
    · rw [placeChildren] at helement
      rcases List.mem_cons.mp helement with rfl | helement
      · exact .inl List.mem_cons_self
      · exact .inr (ih _ helement)
    · rw [placeChildren] at helement
      rcases List.mem_cons.mp helement with rfl | helement
      · exact .inl List.mem_cons_self
      · exact .inr (ih _ helement)

theorem elements_subset {root node : Node} (h : .node node ∈ root.subtree) :
    node.elements ⊆ root.subtree := by
  intro element helement
  refine subtree_subset h (List.mem_cons_of_mem _ ?_)
  exact placeChildren_subset node.ancestors node.place.inside node.children helement

theorem mem_descendants {root node : Node} :
    node ∈ root.descendants ↔ .node node ∈ root.subtree := by
  rw [descendants, List.mem_filterMap]
  constructor
  · rintro ⟨element, helement, hnode⟩
    cases element with
    | node it =>
      rw [Element.node?, Option.some.injEq] at hnode
      exact hnode ▸ helement
    | leaf it => exact absurd hnode (by simp only [Element.node?, reduceCtorEq, not_false_eq_true])
  · exact fun h => ⟨.node node, h, rfl⟩

/-- A child of a node of a tree is in the tree. -/
theorem mem_descendants_of_child {root node child : Node} (h : node ∈ root.descendants)
    (hchild : .node child ∈ node.elements) : child ∈ root.descendants :=
  mem_descendants.mpr (elements_subset (mem_descendants.mp h) hchild)

theorem mem_elements_of_childNodes {node child : Node} (h : child ∈ node.childNodes) :
    .node child ∈ node.elements := by
  rw [childNodes, List.mem_filterMap] at h
  rcases h with ⟨element, helement, hnode⟩
  cases element with
  | node it =>
    rw [Element.node?, Option.some.injEq] at hnode
    exact hnode ▸ helement
  | leaf it => exact absurd hnode (by simp only [Element.node?, reduceCtorEq, not_false_eq_true])

mutual

/-- The nodes around something in a tree are around the tree or in it. -/
theorem parents_locate {parents : List Node} {place : Place} {element : Element} {outer : Node}
    (tree : Tree) (h : element ∈ locate parents place tree) (houter : outer ∈ element.parents) :
    outer ∈ parents ∨ .node outer ∈ locate parents place tree :=
  match tree with
  | .token tok => by
    rw [locate, List.mem_singleton] at h
    rw [h] at houter
    exact .inl houter
  | .node kind children => by
    rw [locate] at h ⊢
    rcases List.mem_cons.mp h with rfl | h
    · exact .inl houter
    -- Below the node the parents are its own and the node itself.
    · rcases parents_locateAll children h houter with houter | houter
      · rcases List.mem_cons.mp houter with rfl | houter
        · exact .inr List.mem_cons_self
        · exact .inl houter
      · exact .inr (List.mem_cons_of_mem _ houter)

theorem parents_locateAll {parents : List Node} {place : Place} {element : Element} {outer : Node}
    (row : List Tree) (h : element ∈ locateAll parents place row)
    (houter : outer ∈ element.parents) :
    outer ∈ parents ∨ .node outer ∈ locateAll parents place row :=
  match row with
  | [] => absurd h List.not_mem_nil
  | tree :: more => by
    rw [locateAll, List.mem_append] at h ⊢
    rcases h with h | h
    · exact (parents_locate tree h houter).imp id .inl
    · exact (parents_locateAll more h houter).imp id .inr

end

/-- The nodes around something in a tree are in the tree. -/
theorem parents_mem {root outer : Node} {element : Element} (hroot : root.parents = [])
    (h : element ∈ root.subtree) (houter : outer ∈ element.parents) : outer ∈ root.descendants := by
  rw [mem_descendants]
  rw [subtree] at h ⊢
  rcases List.mem_cons.mp h with rfl | h
  · rw [Element.parents, hroot] at houter
    exact absurd houter List.not_mem_nil
  · rcases parents_locateAll root.children h houter with houter | houter
    · rw [ancestors, hroot, List.mem_singleton] at houter
      rw [houter]
      exact List.mem_cons_self
    · exact List.mem_cons_of_mem _ houter

theorem locate_tree (node : Node) : locate node.parents node.place node.tree = node.subtree := by
  rcases node with ⟨kind, children, place, parents⟩
  rw [tree, locate, subtree, ancestors]

mutual

/-- What is in a tree is below all nodes around it that are in the tree. -/
theorem mem_subtree_locate {parents : List Node} {place : Place} {element : Element} {outer : Node}
    (tree : Tree) (h : element ∈ locate parents place tree) (houter : outer ∈ element.parents) :
    outer ∈ parents ∨ element ∈ outer.subtree :=
  match tree with
  | .token _ => by
    rw [locate, List.mem_singleton] at h
    rw [h] at houter
    exact .inl houter
  | .node kind children => by
    rw [locate] at h
    rcases List.mem_cons.mp h with heq | h
    · rw [heq] at houter
      exact .inl houter
    -- Below the node, it is one of the parents, and what is below it is in its subtree.
    · rcases mem_subtree_locateAll children h houter with houter | hmem
      · rcases List.mem_cons.mp houter with rfl | houter
        · exact .inr (List.mem_cons_of_mem _ h)
        · exact .inl houter
      · exact .inr hmem

theorem mem_subtree_locateAll {parents : List Node} {place : Place} {element : Element}
    {outer : Node} (row : List Tree) (h : element ∈ locateAll parents place row)
    (houter : outer ∈ element.parents) : outer ∈ parents ∨ element ∈ outer.subtree :=
  match row with
  | [] => absurd h List.not_mem_nil
  | tree :: more => by
    rw [locateAll, List.mem_append] at h
    rcases h with h | h
    · exact mem_subtree_locate tree h houter
    · exact mem_subtree_locateAll more h houter

end

/-- A node of a tree is below the nodes around it. -/
theorem mem_descendants_of_ancestor {root node outer : Node} (hroot : root.parents = [])
    (h : node ∈ root.descendants) (houter : outer ∈ node.ancestors) : node ∈ outer.descendants := by
  rw [mem_descendants]
  rcases List.mem_cons.mp houter with rfl | houter
  · exact List.mem_cons_self
  · have hmem := mem_descendants.mp h
    rw [← locate_tree] at hmem
    rcases mem_subtree_locate root.tree hmem houter with houter | hmem
    · rw [hroot] at houter
      exact absurd houter List.not_mem_nil
    · exact hmem

/-! ## Numbers -/

theorem length_locate (parents : List Node) (place : Place) (tree : Tree) :
    ((locate parents place tree).filterMap Element.node?).length = tree.nodeCount := by
  rw [← List.length_map (f := Node.tree), tree_locate, Tree.nodeCount]

mutual

/-- Nodes are numbered in the order in which they are located. -/
theorem nodes_locate {parents : List Node} {place : Place} {count : Nat} {node : Node}
    (tree : Tree)
    (h : ((locate parents place tree).filterMap Element.node?)[count]? = some node) :
    node.place.nodes = place.nodes + count :=
  match tree with
  | .token _ => absurd h (by simp only [locate, List.filterMap_cons, Element.node?,
      List.filterMap_nil, List.getElem?_nil, reduceCtorEq, not_false_eq_true])
  | .node kind children => by
    rw [locate, List.filterMap_cons_some (f := Element.node?) rfl] at h
    -- The node itself is the first, its children are numbered behind it.
    rcases count with _ | count
    · rw [List.getElem?_cons_zero, Option.some.injEq] at h
      rw [← h]
      rfl
    · rw [List.getElem?_cons_succ] at h
      rw [nodes_locateAll children h, Place.inside]
      dsimp only
      omega

theorem nodes_locateAll {parents : List Node} {place : Place} {count : Nat} {node : Node}
    (row : List Tree)
    (h : ((locateAll parents place row).filterMap Element.node?)[count]? = some node) :
    node.place.nodes = place.nodes + count :=
  match row with
  | [] => absurd h (by simp only [locateAll, List.filterMap_nil, List.getElem?_nil, reduceCtorEq,
      not_false_eq_true])
  | tree :: more => by
    rw [locateAll, List.filterMap_append] at h
    -- In the first tree, or past all of its nodes.
    by_cases hcount : count < tree.nodeCount
    · rw [List.getElem?_append_left (by rw [length_locate]; exact hcount)] at h
      exact nodes_locate tree h
    · rw [List.getElem?_append_right (by rw [length_locate]; omega), length_locate] at h
      rw [nodes_locateAll more h, Place.after]
      dsimp only
      omega

end

theorem number_of_getElem? {root node : Node} {count : Nat}
    (h : root.descendants[count]? = some node) : node.number = root.number + count := by
  rw [descendants, subtree, List.filterMap_cons_some (f := Element.node?) rfl] at h
  rcases count with _ | count
  · rw [List.getElem?_cons_zero, Option.some.injEq] at h
    rw [← h]
    rfl
  · rw [List.getElem?_cons_succ] at h
    rw [number, nodes_locateAll root.children h, number, Place.inside]
    dsimp only
    omega

/-- Two nodes of one tree with one number are the same node. -/
theorem eq_of_same {root a b : Node} (ha : a ∈ root.descendants) (hb : b ∈ root.descendants)
    (h : a.same b = true) : a = b := by
  rcases List.mem_iff_getElem?.mp ha with ⟨i, hi⟩
  rcases List.mem_iff_getElem?.mp hb with ⟨j, hj⟩
  have hnumber := number_of_getElem? hi
  have hnumber' := number_of_getElem? hj
  rw [same, beq_iff_eq] at h
  have hij : i = j := by omega
  rw [hij, hj] at hi
  exact (Option.some.inj hi).symm

end Node

end PhpAssist

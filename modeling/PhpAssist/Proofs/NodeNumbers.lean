import PhpAssist.Proofs.TableTrees
import PhpAssist.Proofs.Walks

/-!
# How a table numbers the nodes of a tree

A table numbers a node when it starts, before anything of it is known, and puts its children into
the row of children when it finishes. A tree in place numbers a node by how many nodes stand in
front of it. The numbers are the same: between the start of a node and its end only the nodes below
it are started, so they get the numbers that follow.

While a table is in the making this holds of what is finished. The trees that finished in an open
node are numbered from the number behind that of the node on, and the next open node has the number
behind them. A node that starts gets the number behind everything, and one that finishes stands as
one tree where it was pending. Nothing is asked of the tokens.

## Main definitions

* `Table.NumberedTree`, `Table.NumberedRow`: Children that are trees whose nodes are numbered from a
  number on.
* `Table.Open`: Open nodes with the trees that finished in them, and the next number.
* `Table.Numbers`: A table in the making numbers a tree in the making.

## Theorems

* `Table.Open.start`, `Table.Open.finish`: A node starts and gets a number, or finishes and keeps
  it.
* `Table.Numbers.step`: A step is refused by both or keeps the numbers.
* `Table.agree_numbers`: What steps build is numbered.
* `Table.NumberedTree.exists_entry`: The record of a node is found under its number.
* `Table.preorder_listing`: The walks over the nodes of what steps build.
-/

namespace PhpAssist

namespace Table

/-- The number of nodes in a row of trees. -/
def rowCount (row : List Tree) : Nat := (Tree.subtreesOf row).length

theorem rowCount_cons (tree : Tree) (row : List Tree) :
    rowCount (tree :: row) = tree.nodeCount + rowCount row := by
  rw [rowCount, Tree.subtreesOf, List.length_append]
  rfl

theorem rowCount_concat (row : List Tree) (tree : Tree) :
    rowCount (row ++ [tree]) = rowCount row + tree.nodeCount := by
  induction row with
  | nil => rw [List.nil_append, rowCount_cons, Nat.add_comm]
  | cons head row ih => rw [List.cons_append, rowCount_cons, ih, rowCount_cons, Nat.add_assoc]

theorem nodeCount_node (kind : Kind) (row : List Tree) :
    (Tree.node kind row).nodeCount = rowCount row + 1 := rfl

/-- A finished node has a kind, and its stretch of the row of children has some children. -/
def Stored (nodes : List Entry) (children : List Child) (kind : Kind) (index : Nat)
    (family : List Child) : Prop :=
  ∃ entry, nodes[index]? = some entry ∧ entry.kind = kind ∧
    entry.childrenStart + entry.childrenLength ≤ children.length ∧
    (children.drop entry.childrenStart).take entry.childrenLength = family

section Numbered

variable (nodes : List Entry) (children : List Child)

mutual

/-- A child is a tree whose nodes are numbered from a number on, parents before children and from
    left to right. -/
inductive NumberedTree : Nat → Tree → Child → Prop
  | token (first : Nat) (tok : Token) (index : Nat) :
    NumberedTree first (.token tok) (.token index)
  | node {first : Nat} {kind : Kind} {row : List Tree} {family : List Child}
      (h : Stored nodes children kind first family) (hrow : NumberedRow (first + 1) row family) :
    NumberedTree first (.node kind row) (.node first)

/-- Some children are a row of trees whose nodes are numbered from a number on. -/
inductive NumberedRow : Nat → List Tree → List Child → Prop
  | nil (first : Nat) : NumberedRow first [] []
  | cons {first : Nat} {tree : Tree} {child : Child} {row : List Tree} {family : List Child}
      (h : NumberedTree first tree child) (hrow : NumberedRow (first + tree.nodeCount) row family) :
    NumberedRow first (tree :: row) (child :: family)

end

end Numbered

section Stays

variable {nodes nodes' : List Entry} {children children' : List Child}

theorem Stored.mono {kind : Kind} {index : Nat} {family : List Child}
    (h : Stored nodes children kind index family) (hnodes : nodes'[index]? = nodes[index]?)
    (hchildren : children <+: children') : Stored nodes' children' kind index family := by
  rcases h with ⟨entry, hentry, hkind, hlength, hfamily⟩
  rcases hchildren with ⟨more, rfl⟩
  refine ⟨entry, hnodes.trans hentry, hkind, ?_, ?_⟩
  · rw [List.length_append]
    omega
  · -- The stretch of the node lies in the row as it was, so what is added behind is not in it.
    have hle : entry.childrenStart ≤ children.length := by omega
    have htake : entry.childrenLength ≤ (children.drop entry.childrenStart).length := by
      rw [List.length_drop]
      omega
    rw [List.drop_append_of_le_length hle, List.take_append_of_le_length htake, hfamily]

mutual

theorem NumberedTree.mono {first : Nat} {tree : Tree} {child : Child}
    (hnodes : ∀ i, first ≤ i → i < first + tree.nodeCount → nodes'[i]? = nodes[i]?)
    (hchildren : children <+: children') (h : NumberedTree nodes children first tree child) :
    NumberedTree nodes' children' first tree child :=
  match h with
  | .token first tok index => .token first tok index
  | .node h hrow => by
    rw [nodeCount_node] at hnodes
    refine .node (h.mono (hnodes _ (Nat.le_refl _) (by omega)) hchildren) ?_
    exact hrow.mono (fun i hle hlt => hnodes i (by omega) (by omega)) hchildren

theorem NumberedRow.mono {first : Nat} {row : List Tree} {family : List Child}
    (hnodes : ∀ i, first ≤ i → i < first + rowCount row → nodes'[i]? = nodes[i]?)
    (hchildren : children <+: children') (h : NumberedRow nodes children first row family) :
    NumberedRow nodes' children' first row family :=
  match h with
  | .nil first => .nil first
  | .cons h hrow => by
    rw [rowCount_cons] at hnodes
    refine .cons (h.mono (fun i hle hlt => hnodes i hle (by omega)) hchildren) ?_
    exact hrow.mono (fun i hle hlt => hnodes i (by omega) (by omega)) hchildren

end

theorem NumberedRow.concat {first : Nat} {row : List Tree} {family : List Child} {tree : Tree}
    {child : Child} (hrow : NumberedRow nodes children first row family)
    (h : NumberedTree nodes children (first + rowCount row) tree child) :
    NumberedRow nodes children first (row ++ [tree]) (family ++ [child]) := by
  induction row generalizing first family with
  | nil =>
    cases hrow
    exact .cons h (.nil _)
  | cons head row ih =>
    cases hrow with
    | cons hhead hrow =>
      rw [rowCount_cons, ← Nat.add_assoc] at h
      exact .cons hhead (ih hrow h)

end Stays

/-! ## Open nodes -/

/-- The open nodes of a tree and of a table in the making, the innermost first, and the number that
    the next node gets. The innermost one has some pending children at its end that are not
    finished; without them its children are the trees that are finished since it was started, and
    these are numbered behind it. -/
inductive Open (nodes : List Entry) (children : List Child) :
    Nat → List Tree → List Child → List (Nat × Kind) → List Opened → Prop
  | nil {row : List Tree} {pending done : List Child} (htop : top nodes = done ++ pending)
      (hrow : NumberedRow nodes children 0 row done) :
      Open nodes children (rowCount row) row pending [] []
  | cons {below row : List Tree} {pending done : List Child} {opens : List (Nat × Kind)}
      {opened : Opened} {entry : Entry} {outer : List Opened}
      (hentry : nodes[opened.node]? = some entry) (hchildren : opened.children = done ++ pending)
      (hrow : NumberedRow nodes children (opened.node + 1) row done)
      (houter : Open nodes children opened.node below [.node opened.node] opens outer) :
      Open nodes children (opened.node + 1 + rowCount row) (below ++ row) pending
        ((below.length, entry.kind) :: opens) (opened :: outer)

namespace Open

variable {nodes nodes' : List Entry} {children children' : List Child} {next : Nat}
  {row : List Tree} {pending : List Child} {opens : List (Nat × Kind)} {opened : List Opened}

theorem mono (h : Open nodes children next row pending opens opened)
    (hnodes : ∀ i < next, nodes'[i]? = nodes[i]?) (hchildren : children <+: children')
    (htop : top nodes' = top nodes) : Open nodes' children' next row pending opens opened := by
  induction h with
  | nil hdone hrow =>
    exact .nil (htop.trans hdone) (hrow.mono (fun i _ hlt => hnodes i (by omega)) hchildren)
  | @cons below row pending done opens opened entry outer hentry hfamily hrow _ ih =>
    -- The open nodes around this one have lower numbers.
    have hkept := hnodes opened.node (by omega)
    refine .cons (hkept.trans hentry) hfamily ?_ (ih fun i hi => hnodes i (by omega))
    exact hrow.mono (fun i _ hlt => hnodes i hlt) hchildren

/-- Once a pending child is a tree that is numbered from the next number on, it is finished. -/
theorem count {child : Child} {tree : Tree}
    (h : Open nodes children next row (child :: pending) opens opened)
    (hchild : NumberedTree nodes children next tree child) :
    Open nodes children (next + tree.nodeCount) (row ++ [tree]) pending opens opened := by
  -- The tree joins the row of what is open innermost, or the top row if nothing is open.
  cases h with
  | nil htop hrow =>
    have hchild' : NumberedTree nodes children (0 + rowCount row) tree child := by
      rwa [Nat.zero_add]
    rw [← rowCount_concat]
    refine .nil ?_ (hrow.concat hchild')
    rw [htop, List.append_assoc, List.singleton_append]
  | cons hentry hfamily hrow houter =>
    rw [List.append_assoc, Nat.add_assoc, ← rowCount_concat]
    refine .cons hentry ?_ (hrow.concat hchild) houter
    rw [hfamily, List.append_assoc, List.singleton_append]

/-- A child that is added is pending at first. -/
theorem adopt {innermost : Opened} {outer : List Opened}
    (h : Open nodes children next row [] opens (innermost :: outer)) (child : Child) :
    Open nodes children next row [child] opens (Draft.adopt child (innermost :: outer)) := by
  cases h with
  | cons hentry hfamily hrow houter =>
    rw [List.append_nil] at hfamily
    subst hfamily
    exact @Open.cons _ _ _ _ _ _ _ ⟨innermost.node, innermost.children ++ [child]⟩ _ _ hentry rfl
      hrow houter

/-- There are nodes when some of them are open. -/
theorem nodes_ne_nil {innermost : Opened} {outer : List Opened}
    (h : Open nodes children next row pending opens (innermost :: outer)) : nodes ≠ [] := by
  rintro rfl
  cases h with
  | cons hentry _ _ _ => simp at hentry

/-- A node that starts is pending in the one around it, or is the first one. It gets the next
    number. -/
theorem start (h : Open nodes children nodes.length row [] opens opened)
    (hroot : opened = [] → nodes = []) (entry : Entry) :
    Open (nodes ++ [entry]) children (nodes.length + 1) row []
      ((row.length, entry.kind) :: opens)
      (⟨nodes.length, []⟩ :: Draft.adopt (.node nodes.length) opened) := by
  have hentry : (nodes ++ [entry])[nodes.length]? = some entry := List.getElem?_concat_length
  have hkept : ∀ i < nodes.length, (nodes ++ [entry])[i]? = nodes[i]? :=
    fun i hi => List.getElem?_append_left hi
  -- The node is numbered at its start, and its row ends only when it is closed.
  have hpending : Open (nodes ++ [entry]) children nodes.length row [.node nodes.length] opens
      (Draft.adopt (.node nodes.length) opened) := by
    rcases opened with _ | ⟨innermost, outer⟩
    · -- Outside of all nodes nothing was finished yet, and what is pending is the first node.
      have hnil := hroot rfl
      subst hnil
      generalize hnext : ([] : List Entry).length = next at h
      cases h with
      | @nil _ _ done htop hrow =>
        rw [List.append_nil] at htop
        cases (show [] = done from htop)
        cases hrow
        exact .nil rfl (.nil 0)
    · have htop : top (nodes ++ [entry]) = top nodes := by
        rw [top, top, List.isEmpty_eq_false_iff.mpr h.nodes_ne_nil,
          List.isEmpty_eq_false_iff.mpr (List.append_ne_nil_of_left_ne_nil h.nodes_ne_nil _)]
      exact (h.adopt _).mono hkept List.prefix_rfl htop
  have hwhole := @Open.cons _ _ _ _ _ _ _ ⟨nodes.length, []⟩ _ _ hentry rfl (.nil _) hpending
  rwa [List.append_nil] at hwhole

/-- The innermost node finishes: its children go to the end of the row of children, and are the
    trees since it was started. -/
theorem finish (h : Open nodes children next row [] opens opened) (draft : Draft)
    (hdraft : draft.children = children) {innermost : Opened} {outer : List Opened}
    (hopened : opened = innermost :: outer) :
    ∃ below inside kind more, row = below ++ inside ∧ opens = (below.length, kind) :: more ∧
      Open (nodes.modify innermost.node (draft.finished innermost.children))
        (children ++ innermost.children) next (below ++ [Tree.node kind inside]) [] more outer := by
  cases h with
  | nil => cases hopened
  | @cons below inside _ done more _ entry _ hentry hfamily hrow houter =>
    cases hopened
    rw [List.append_nil] at hfamily
    subst hfamily
    -- Finishing changes one record only, which no other open node and no finished one looks at.
    have hkept {i : Nat} (hne : innermost.node ≠ i) :
        (nodes.modify innermost.node (draft.finished innermost.children))[i]? = nodes[i]? :=
      List.getElem?_modify_ne _ _ hne
    have hprefix := List.prefix_append children innermost.children
    have htop : top (nodes.modify innermost.node (draft.finished innermost.children)) =
        top nodes := by
      simp only [top, List.isEmpty_iff, ← List.length_eq_zero_iff, List.length_modify]
    have hstored : Stored (nodes.modify innermost.node (draft.finished innermost.children))
        (children ++ innermost.children) entry.kind innermost.node innermost.children := by
      refine ⟨draft.finished innermost.children entry,
        (List.getElem?_modify_eq _ _ _).trans (congrArg _ hentry), rfl, ?_, ?_⟩
      · simp only [Draft.finished, hdraft, List.length_append, Nat.le_refl]
      · simp only [Draft.finished, hdraft, List.drop_left, List.take_length]
    -- In the node around it the finished node was pending, and now it is counted.
    have houter' := houter.mono (fun i hi => hkept (by omega)) hprefix htop
    have hcounted := houter'.count (.node hstored
      (hrow.mono (fun i hle _ => hkept (by omega)) hprefix))
    refine ⟨below, inside, entry.kind, more, rfl, rfl, ?_⟩
    rw [nodeCount_node, Nat.add_comm (rowCount inside), ← Nat.add_assoc] at hcounted
    exact hcounted

end Open

/-! ## Steps -/

/-- A table in the making numbers the nodes of a tree in the making over the same text. -/
structure Numbers (text : Text) (builder : Builder) (draft : Draft) : Prop where
  text_eq : draft.text = text
  left : draft.Left builder.rest
  spare : ∀ children ∈ draft.spare, children = []
  grown : Open draft.nodes draft.children draft.nodes.length builder.forest.trees []
    builder.opened draft.opened

theorem numbers_begin (text : Text) : Numbers text (.begin text) (.begin text) where
  text_eq := rfl
  left := ⟨[], rfl, rfl⟩
  spare _ h := absurd h List.not_mem_nil
  grown := .nil rfl (.nil 0)

namespace Numbers

variable {text : Text} {builder : Builder} {draft : Draft}

/-- Both have open nodes or neither has. -/
theorem isEmpty_opened (h : Numbers text builder draft) :
    builder.opened.isEmpty = draft.opened.isEmpty := by
  have hgrown := h.grown
  generalize builder.opened = opens at hgrown ⊢
  generalize draft.opened = opened at hgrown ⊢
  generalize draft.nodes.length = next at hgrown
  generalize builder.forest.trees = row at hgrown
  cases hgrown <;> rfl

/-- Without open nodes there is the tree of the first node, or there is nothing. -/
theorem closed_cases (h : Numbers text builder draft) (hopened : draft.opened = []) :
    (builder.forest.latest = [] ∧ draft.nodes = []) ∨ ∃ kind row, draft.nodes ≠ [] ∧
      builder.forest.latest = [.node kind row] ∧
      draft.nodes.length = (Tree.node kind row).nodeCount ∧
      NumberedTree draft.nodes draft.children 0 (.node kind row) (.node 0) := by
  have hgrown := h.grown
  rw [hopened] at hgrown
  have hlatest : builder.forest.latest = builder.forest.trees.reverse :=
    (List.reverse_reverse _).symm
  rw [hlatest]
  generalize hnext : draft.nodes.length = next at hgrown
  generalize builder.forest.trees = row at hgrown ⊢
  generalize builder.opened = opens at hgrown
  cases hgrown with
  | @nil _ _ done htop hrow =>
    rw [List.append_nil] at htop
    subst htop
    -- Without nodes nothing was built; otherwise the one tree is the root.
    by_cases hnodes : draft.nodes = []
    · rw [top, hnodes, List.isEmpty_nil, if_pos rfl] at hrow
      cases hrow
      exact .inl ⟨rfl, hnodes⟩
    · rw [top, List.isEmpty_eq_false_iff.mpr hnodes, if_neg Bool.false_ne_true] at hrow
      cases hrow with
      | cons htree hrow =>
        cases hrow
        cases htree with
        | node hstored hfamily =>
          refine .inr ⟨_, _, hnodes, rfl, ?_, .node hstored hfamily⟩
          exact rowCount_cons _ _

/-- The tree that is left at the end is that of the first node. -/
theorem numbered_root (h : Numbers text builder draft) (hopened : draft.opened = [])
    {kind : Kind} {row : List Tree} (hlatest : builder.forest.latest = [.node kind row]) :
    draft.nodes.length = (Tree.node kind row).nodeCount ∧
      NumberedTree draft.nodes draft.children 0 (.node kind row) (.node 0) := by
  rcases h.closed_cases hopened with ⟨hnil, _⟩ | ⟨_, _, _, heq, hcount, htree⟩
  · exact absurd (hlatest.symm.trans hnil) (List.cons_ne_nil _ _)
  · cases hlatest.symm.trans heq
    exact ⟨hcount, htree⟩

theorem level (h : Numbers text builder draft) : Level builder draft where
  opened := h.isEmpty_opened
  roots hopened := (h.closed_cases hopened).imp_right fun ⟨kind, row, hnodes, hlatest, _⟩ =>
    ⟨kind, row, hlatest, hnodes⟩

theorem start (h : Numbers text builder draft) (kind : Kind) :
    Agree (Numbers text) (builder.step (.start kind)) (draft.startNode kind) := by
  refine h.level.start kind fun hroot => ?_
  have hlength : draft.nodes.length + 1 = (draft.nodes ++ [draft.started kind]).length := by
    rw [List.length_append, List.length_singleton]
  have hgrown := h.grown.start hroot (draft.started kind)
  rw [Forest.trees, List.length_reverse, hlength] at hgrown
  refine ⟨h.text_eq, h.left, fun children hchildren => ?_, ?_⟩
  · exact h.spare children (List.mem_of_mem_tail hchildren)
  · rw [Draft.entered, headD_eq_nil h.spare]
    exact hgrown

theorem finish (h : Numbers text builder draft) :
    Agree (Numbers text) (builder.step .finish) draft.finishNode := by
  refine h.level.finish fun start kind opens innermost outer hopens hopened => ?_
  rcases h.grown.finish draft rfl hopened with ⟨below, inside, _, _, hrow, heq, hgrown⟩
  cases hopens.symm.trans heq
  refine ⟨h.text_eq, h.left, fun children hchildren => ?_, ?_⟩
  · rcases List.mem_cons.mp hchildren with rfl | hchildren
    · rfl
    · exact h.spare children hchildren
  · rw [forest_eq hrow, Draft.exited]
    dsimp only
    rw [Forest.trees_close, List.length_modify]
    exact hgrown

theorem token (h : Numbers text builder draft) (leading : List Builder.TriviaSize) (kind : Kind)
    (size : Nat) (trailing : List Builder.TriviaSize) :
    Agree (Numbers text) (builder.step (.token leading kind size trailing))
      (draft.pushToken leading kind size trailing) := by
  refine h.level.token h.left leading kind size trailing ?_
  intro innermost outer tok rest hopened hleft _ _ _
  refine ⟨h.text_eq, hleft, h.spare, ?_⟩
  have hgrown := h.grown
  rw [hopened] at hgrown
  have hcounted := (hgrown.adopt (.token (draft.tokens.length + leading.length))).count
    (.token _ tok _)
  rw [← Forest.trees_push, ← hopened] at hcounted
  exact hcounted

/-- Steps go on with numbers, or both refuse. -/
theorem step (h : Numbers text builder draft) (step : Builder.Step) :
    Agree (Numbers text) (builder.step step) (draft.step step) := by
  cases step with
  | start kind => exact h.start kind
  | token leading kind size trailing => exact h.token leading kind size trailing
  | finish => exact h.finish

end Numbers

/-- Whatever steps are taken: both refuse them for the same reason, or the table numbers the nodes
    of the tree and no others. -/
theorem agree_numbers (text : Text) (steps : List Builder.Step) :
    Agree (fun source table => ∃ kind row, source.root = .root kind row ∧
        table.nodes.length = (Tree.node kind row).nodeCount ∧
        NumberedTree table.nodes table.children 0 (.node kind row) (.node 0))
      (Builder.run text steps) (build text steps) := by
  have hsteps : Agree (Numbers text) (steps.foldlM Builder.step (.begin text))
      (steps.foldlM Draft.step (.begin text)) :=
    Agree.foldlM (fun step _ _ _ h => h.step step) (numbers_begin text)
  refine hsteps.bind fun builder draft h => ?_
  -- Closing the last node leaves exactly the root.
  have hfinished : Agree (fun root table => ∃ kind row, root = .root kind row ∧
      table.nodes.length = (Tree.node kind row).nodeCount ∧
      NumberedTree table.nodes table.children 0 (.node kind row) (.node 0))
      builder.finish draft.finish :=
    h.level.finished fun kind row hopened _ hlatest =>
      ⟨kind, row, rfl, h.numbered_root hopened hlatest⟩
  exact hfinished.map_left fun _ _ h => h

/-! ## Nodes in place -/

section Place

variable {nodes : List Entry} {children : List Child}

/-- The node children of a numbered row have the numbers of the nodes of the row in place. -/
theorem NumberedRow.nodes_eq (parents : List Node) (place : Place) {row : List Tree}
    {family : List Child} (h : NumberedRow nodes children place.nodes row family) :
    family.filterMap Child.node? = (Node.rowNodes parents place row).map Node.number := by
  induction row generalizing place family with
  | nil =>
    cases h
    rfl
  | cons tree row ih =>
    cases h with
    | cons htree hrow =>
      have hmore := ih (place.after tree) hrow
      -- A token has no number of its own.
      cases htree with
      | token => exact hmore
      | node =>
        rw [Node.rowNodes_node, List.map_cons, ← hmore]
        rfl

mutual

/-- The record of a node in place is found under the number of the node. -/
theorem NumberedTree.exists_entry (parents : List Node) (place : Place) (tree : Tree)
    {child : Child} (h : NumberedTree nodes children place.nodes tree child) {node : Node}
    (hnode : .node node ∈ Node.locate parents place tree) :
    ∃ family, Stored nodes children node.kind node.number family ∧
      family.filterMap Child.node? = node.childNodes.map Node.number :=
  match tree, h with
  | .token _, _ => absurd hnode (by simp only [Node.locate, List.mem_singleton, reduceCtorEq,
      not_false_eq_true])
  | .node kind row, .node hstored hrow => by
    rw [Node.locate] at hnode
    rcases List.mem_cons.mp hnode with heq | hnode
    -- The entry of the node itself was stored with its family.
    · injection heq with heq
      rw [heq]
      exact ⟨_, hstored, hrow.nodes_eq _ place.inside⟩
    · exact hrow.exists_entry _ place.inside row hnode

theorem NumberedRow.exists_entry (parents : List Node) (place : Place) (row : List Tree)
    {family : List Child} (h : NumberedRow nodes children place.nodes row family) {node : Node}
    (hnode : .node node ∈ Node.locateAll parents place row) :
    ∃ family, Stored nodes children node.kind node.number family ∧
      family.filterMap Child.node? = node.childNodes.map Node.number :=
  match row, h with
  | [], _ => absurd hnode List.not_mem_nil
  | tree :: row, .cons htree hrow => by
    rw [Node.locateAll] at hnode
    rcases List.mem_append.mp hnode with hnode | hnode
    · exact htree.exists_entry parents place tree hnode
    · exact hrow.exists_entry parents (place.after tree) row hnode

end

end Place

/-- A finished table has a tree whose nodes are numbered as those of the table, and under its number
    a node has its kind and its child nodes. The walk over any node of the tree gives the recursive
    listing of the node and is over. It enters what is below the node, in the order of a stretch of
    numbers that begins with that of the node, it leaves the same nodes, and the nodes that are left
    are always those entered last. -/
theorem preorder_listing {text : Text} {steps : List Builder.Step} {table : Table}
    (hbuild : build text steps = .ok table) :
    ∃ source, Builder.run text steps = .ok source ∧
      source.root.descendants.map Node.number = List.range table.nodes.length ∧
      ∀ node ∈ source.root.descendants,
        (Walk.begin node).Emits node.preorder .ended ∧ Walk.ended.next? = none ∧
        node.preorder = node.listing ∧
        node.listing = .enter node :: (node.childNodes.flatMap Node.listing ++ [.leave node]) ∧
        Nested node.preorder ∧
        node.preorder.filterMap WalkEvent.entered? = node.descendants ∧
        (node.preorder.filterMap WalkEvent.left?).Perm node.descendants ∧
        node.descendants.map Node.number = List.range' node.number node.tree.nodeCount ∧
        ∃ entry, table.nodes[node.number]? = some entry ∧ entry.kind = node.kind ∧
          (table.childrenOf entry).filterMap Child.node? = node.childNodes.map Node.number := by
  have hagree := agree_numbers text steps
  rw [hbuild] at hagree
  generalize Builder.run text steps = run at hagree ⊢
  cases hagree with
  | @ok source _ h =>
    rcases h with ⟨kind, row, hroot, hcount, htree⟩
    refine ⟨source, rfl, ?_, fun node hnode => ?_⟩
    · rw [hroot, Node.number_descendants, hcount, List.range_eq_range']
      rfl
    -- Every node has its entry in the table, and the walk gives its listing.
    · rw [hroot, Node.mem_descendants, ← Node.locate_tree] at hnode
      rcases htree.exists_entry [] .origin _ hnode with
        ⟨family, ⟨entry, hentry, hkind, _, hfamily⟩, hnodes⟩
      rw [node.preorder_eq]
      refine ⟨Walk.emits_listing node, Walk.next?_ended, rfl, node.listing_eq,
        Node.nested_listTree _ _ _, node.entered_listing, node.left_listing,
        node.number_descendants, entry, hentry, hkind, ?_⟩
      rw [childrenOf, hfamily, hnodes]

/-- Of the nodes of a call the list of arguments starts last, and finishes before the call does. -/
theorem preorder_listing_call :
    ∃ table source, build " f; \n".toList callSteps = .ok table ∧
      Builder.run " f; \n".toList callSteps = .ok source ∧
      source.root.descendants.map Node.number = [0, 1, 2, 3, 4] ∧
      ∀ node ∈ source.root.descendants, node.preorder = node.listing := by
  have hcount : (build " f; \n".toList callSteps).toOption.map (fun table => table.nodes.length) =
      some 5 := by decide +kernel
  rcases hbuild : build " f; \n".toList callSteps with misuse | table
  · rw [hbuild] at hcount
    exact absurd hcount nofun
  · rw [hbuild] at hcount
    have hlength : table.nodes.length = 5 := Option.some.inj hcount
    rcases preorder_listing hbuild with ⟨source, hrun, hnumbers, hwalk⟩
    rw [hlength] at hnumbers
    exact ⟨table, source, rfl, hrun, hnumbers, fun node hnode => (hwalk node hnode).2.2.1⟩

end Table

end PhpAssist

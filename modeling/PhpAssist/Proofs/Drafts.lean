import PhpAssist.Proofs.TokenRow

/-!
# Tables in the making

Nodes get their numbers when they start and their stretch of the row of children when they finish.
Between the two a table in the making has nodes whose records say nothing yet, and children that are
in no row. What holds of it all the same is said with the help of the nodes that were finished so
far, in the order in which they finished: each with its children and with the stretch of tokens that
it covers. Finishing a node moves it from the open nodes to these, and whatever is said of both
together stays as it is.

The open nodes form a chain. The innermost one is covered by its children up to the last token, and
every other one up to where the next node starts, which is its last child.

## Main definitions

* `Table.Closed`: A node that was finished.
* `Table.Spread`: Children that cover a stretch of tokens one behind the other.
* `Table.Chain`: The open nodes and what they cover.
* `Table.Valid`: What holds of a table in the making.

## Theorems

* `Table.Valid.startNode`, `Table.Valid.pushToken`, `Table.Valid.finishNode`: Each step keeps it.
-/

namespace PhpAssist

namespace Table

/-- A node that was finished, with its children and the stretch of tokens that it covers. -/
structure Closed extends Opened where
  span : Span

/-- The stretch of tokens that a child covers. A token covers itself and its trivia. -/
def Covers (closed : List Closed) (tokens : List Cell) : Child → Span → Prop
  | .node index, span => ∃ children, ⟨⟨index, children⟩, span⟩ ∈ closed
  | .token index, span => ∃ cell, tokens[index]? = some cell ∧
      span = ⟨index - cell.leading, cell.leading + 1 + cell.trailing⟩

/-- Children that cover a stretch of tokens one behind the other. -/
inductive Spread (closed : List Closed) (tokens : List Cell) : Nat → Nat → List Child → Prop
  | nil (first : Nat) : Spread closed tokens first first []
  | cons {child : Child} {span : Span} {last : Nat} {more : List Child}
      (hchild : Covers closed tokens child span)
      (hmore : Spread closed tokens span.stop last more) :
      Spread closed tokens span.start last (child :: more)

/-- Open nodes, the innermost first. The innermost one has some pending children at its end that
    are not counted yet; without them its children reach up to a token. -/
inductive Chain (closed : List Closed) (tokens : List Cell) (nodes : List Entry) :
    Nat → List Child → List Opened → Prop
  | nil (stop : Nat) (pending : List Child) : Chain closed tokens nodes stop pending []
  | cons {stop : Nat} {pending done : List Child} {opened : Opened} {entry : Entry}
      {outer : List Opened} (hentry : nodes[opened.node]? = some entry)
      (hchildren : opened.children = done ++ pending)
      (hdone : Spread closed tokens entry.tokensStart stop done)
      (houter : Chain closed tokens nodes entry.tokensStart [.node opened.node] outer) :
      Chain closed tokens nodes stop pending (opened :: outer)

/-- A child names its node as its parent. -/
def Belongs (tokens : List Cell) (nodes : List Entry) (parent : Nat) : Child → Prop
  | .node index => ∃ entry, nodes[index]? = some entry ∧ entry.parent? = some parent
  | .token index => ∃ cell, tokens[index]? = some cell ∧ cell.kind.isTrivia = false ∧
      cell.parent = parent

/-- The record of a node that was finished behind others. -/
structure Closed.Recorded (node : Closed) (closed before : List Closed) (tokens : List Cell)
    (entry : Entry) : Prop where
  childrenStart : entry.childrenStart = (before.flatMap (·.children)).length
  childrenLength : entry.childrenLength = node.children.length
  tokensStart : entry.tokensStart = node.span.start
  tokensEnd : entry.tokensEnd = node.span.stop
  spread : Spread closed tokens node.span.start node.span.stop node.children
  le : node.span.stop ≤ tokens.length

/-- All nodes with the children that they have so far. -/
def families (closed : List Closed) (opened : List Opened) : List Opened :=
  closed.map Closed.toOpened ++ opened

/-- What holds of a table in the making whose finished nodes are known. -/
structure Valid (draft : Draft) (closed : List Closed) : Prop where
  tile : Span.Tile 0 draft.size (draft.tokens.map Cell.span)
  groups : Groups 0 draft.tokens
  parents : ∀ (index : Nat) (entry : Entry), draft.nodes[index]? = some entry →
    (entry.parent? = none ↔ index = 0) ∧ ∀ parent, entry.parent? = some parent → parent < index
  offsets : ∀ (index : Nat) (entry : Entry), draft.nodes[index]? = some entry →
    entry.tokensStart ≤ draft.tokens.length ∧
      entry.offset = position draft.tokens entry.tokensStart
  numbers : ((families closed draft.opened).map Opened.node).Perm (List.range draft.nodes.length)
  listed : (((families closed draft.opened).flatMap Opened.children).filterMap Child.node?).Perm
    (List.range' 1 (draft.nodes.length - 1))
  belongs : ∀ family ∈ families closed draft.opened, ∀ child ∈ family.children,
    Belongs draft.tokens draft.nodes family.node child
  row : draft.children = closed.flatMap (·.children)
  recorded : ∀ index (node : Closed), closed[index]? = some node → ∃ entry,
    draft.nodes[node.node]? = some entry ∧
      node.Recorded closed (closed.take index) draft.tokens entry
  chain : Chain closed draft.tokens draft.nodes draft.tokens.length [] draft.opened
  spare : ∀ children ∈ draft.spare, children = []

theorem valid_begin (text : Text) : Valid (.begin text) [] where
  tile := .nil 0
  groups := .nil 0
  parents index entry h := by simp [Draft.begin] at h
  offsets index entry h := by simp [Draft.begin] at h
  numbers := .nil
  listed := .nil
  belongs family h := absurd h List.not_mem_nil
  row := rfl
  recorded index node h := by simp at h
  chain := .nil _ _
  spare children h := absurd h List.not_mem_nil

/-! ## What stays -/

theorem getElem?_of_prefix {α : Type} {items more : List α} (h : items <+: more) {index : Nat}
    {item : α} (hitem : items[index]? = some item) : more[index]? = some item := by
  rcases h with ⟨rest, rfl⟩
  rw [List.getElem?_append_left (List.getElem?_eq_some_iff.mp hitem).1, hitem]

/-- What a node says from its start on stays. -/
def Keeps (nodes after : List Entry) : Prop :=
  ∀ (index : Nat) (entry : Entry), nodes[index]? = some entry → ∃ entry' : Entry,
    after[index]? = some entry' ∧ entry'.kind = entry.kind ∧ entry'.parent? = entry.parent? ∧
      entry'.tokensStart = entry.tokensStart

theorem keeps_append (nodes more : List Entry) : Keeps nodes (nodes ++ more) :=
  fun _ entry h => ⟨entry, getElem?_of_prefix (List.prefix_append nodes more) h, rfl, rfl, rfl⟩

theorem keeps_refl (nodes : List Entry) : Keeps nodes nodes :=
  fun _ entry h => ⟨entry, h, rfl, rfl, rfl⟩

theorem keeps_finished (nodes : List Entry) (draft : Draft) (children : List Child) (index : Nat) :
    Keeps nodes (nodes.modify index (draft.finished children)) := by
  intro other entry h
  rw [List.getElem?_modify, h]
  by_cases heq : index = other
  · exact ⟨draft.finished children entry, by simp [heq], rfl, rfl, rfl⟩
  · exact ⟨entry, by simp [heq], rfl, rfl, rfl⟩

/-- A node that finishes says the same as before of its start. -/
theorem of_finished {nodes : List Entry} {draft : Draft} {children : List Child} {index other : Nat}
    {after : Entry} (h : (nodes.modify index (draft.finished children))[other]? = some after) :
    ∃ entry, nodes[other]? = some entry ∧ after.parent? = entry.parent? ∧
      after.tokensStart = entry.tokensStart ∧ after.offset = entry.offset := by
  rw [List.getElem?_modify] at h
  rcases hentry : nodes[other]? with _ | entry
  · rw [hentry] at h
    cases h
  · rw [hentry] at h
    cases h
    refine ⟨entry, rfl, ?_⟩
    dsimp only
    -- The record is the one that was changed, or it was not touched; these fields stay either way.
    split
    · exact ⟨rfl, rfl, rfl⟩
    · exact ⟨rfl, rfl, rfl⟩

section Stays

variable {closed closed' : List Closed} {tokens tokens' : List Cell} {nodes nodes' : List Entry}

theorem Covers.mono {child : Child} {span : Span} (h : Covers closed tokens child span)
    (hclosed : closed <+: closed') (htokens : tokens <+: tokens') :
    Covers closed' tokens' child span := by
  cases child with
  | node index =>
    rcases h with ⟨children, hmem⟩
    exact ⟨children, hclosed.subset hmem⟩
  | token index =>
    rcases h with ⟨cell, hcell, hspan⟩
    exact ⟨cell, getElem?_of_prefix htokens hcell, hspan⟩

theorem Spread.mono {first last : Nat} {children : List Child}
    (h : Spread closed tokens first last children) (hclosed : closed <+: closed')
    (htokens : tokens <+: tokens') : Spread closed' tokens' first last children := by
  induction h with
  | nil first => exact .nil first
  | cons hchild _ ih => exact .cons (hchild.mono hclosed htokens) ih

theorem Spread.snoc {first last : Nat} {children : List Child} {child : Child} {span : Span}
    (h : Spread closed tokens first last children) (hchild : Covers closed tokens child span)
    (hstart : span.start = last) : Spread closed tokens first span.stop (children ++ [child]) := by
  induction h with
  | nil first =>
    subst hstart
    exact .cons hchild (.nil _)
  | cons hhead _ ih => exact .cons hhead (ih hstart)

theorem Spread.le {first last : Nat} {children : List Child}
    (h : Spread closed tokens first last children) : first ≤ last := by
  induction h with
  | nil first => exact Nat.le_refl first
  | cons _ _ ih => exact Nat.le_trans (Nat.le_add_right _ _) ih

/-- The chain looks only at where nodes start. -/
theorem Chain.mono {stop : Nat} {pending : List Child} {opened : List Opened}
    (h : Chain closed tokens nodes stop pending opened) (hclosed : closed <+: closed')
    (htokens : tokens <+: tokens') (hnodes : Keeps nodes nodes') :
    Chain closed' tokens' nodes' stop pending opened := by
  induction h with
  | nil stop pending => exact .nil stop pending
  | cons hentry hchildren hdone _ ih =>
    rcases hnodes _ _ hentry with ⟨after, hafter, -, -, hstart⟩
    rw [← hstart] at hdone ih
    exact .cons hafter hchildren (hdone.mono hclosed htokens) ih

/-- Once a pending child is known to cover what comes next, it is counted. -/
theorem Chain.count {start : Nat} {pending : List Child} {opened : List Opened} {child : Child}
    {span : Span} (h : Chain closed tokens nodes start (child :: pending) opened)
    (hchild : Covers closed tokens child span) (hstart : span.start = start) :
    Chain closed tokens nodes span.stop pending opened := by
  cases h with
  | nil => exact .nil _ _
  | cons hentry hchildren hdone houter =>
    refine .cons hentry ?_ (hdone.snoc hchild hstart) houter
    rw [hchildren, List.append_assoc, List.singleton_append]

/-- A child that is added is pending at first. -/
theorem Chain.adopt {stop : Nat} {opened : List Opened}
    (h : Chain closed tokens nodes stop [] opened) (child : Child) :
    Chain closed tokens nodes stop [child] (Draft.adopt child opened) := by
  cases h with
  | nil => exact .nil _ _
  | cons hentry hchildren hdone houter =>
    refine .cons hentry ?_ hdone houter
    rw [hchildren, List.append_nil]

theorem Belongs.mono {parent : Nat} {child : Child} (h : Belongs tokens nodes parent child)
    (htokens : tokens <+: tokens') (hnodes : Keeps nodes nodes') :
    Belongs tokens' nodes' parent child := by
  cases child with
  | node index =>
    rcases h with ⟨entry, hentry, hparent⟩
    rcases hnodes _ _ hentry with ⟨after, hafter, -, heq, -⟩
    exact ⟨after, hafter, heq.trans hparent⟩
  | token index =>
    rcases h with ⟨cell, hcell, hkind⟩
    exact ⟨cell, getElem?_of_prefix htokens hcell, hkind⟩

theorem Closed.Recorded.mono {node : Closed} {before : List Closed} {entry : Entry}
    (h : node.Recorded closed before tokens entry) (hclosed : closed <+: closed')
    (htokens : tokens <+: tokens') : node.Recorded closed' before tokens' entry :=
  { h with
    spread := h.spread.mono hclosed htokens
    le := Nat.le_trans h.le htokens.length_le }

end Stays

/-! ## Steps -/

theorem range'_eq_concat {count : Nat} (h : 0 < count) :
    List.range' 1 count = List.range' 1 (count - 1) ++ [count] := by
  cases count with
  | zero => exact absurd h (Nat.lt_irrefl 0)
  | succ count => rw [List.range'_concat, Nat.add_sub_cancel, Nat.one_mul, Nat.add_comm 1]

section Adopt

variable (opened : List Opened) (index : Nat)

theorem map_node_adopt (child : Child) :
    (Draft.adopt child opened).map Opened.node = opened.map Opened.node := by
  cases opened <;> rfl

theorem nodes_adopt_token :
    ((Draft.adopt (.token index) opened).flatMap Opened.children).filterMap Child.node? =
      (opened.flatMap Opened.children).filterMap Child.node? := by
  cases opened with
  | nil => rfl
  | cons innermost outer =>
    simp only [Draft.adopt, List.flatMap_cons, List.append_assoc, List.singleton_append,
      List.filterMap_append, List.filterMap_cons, Child.node?]

theorem nodes_adopt_node (hopened : opened ≠ []) :
    (((Draft.adopt (.node index) opened).flatMap Opened.children).filterMap Child.node?).Perm
      (index :: (opened.flatMap Opened.children).filterMap Child.node?) := by
  cases opened with
  | nil => exact absurd rfl hopened
  | cons innermost outer =>
    simp only [Draft.adopt, List.flatMap_cons, List.append_assoc, List.singleton_append,
      List.filterMap_append, List.filterMap_cons, Child.node?]
    exact List.perm_middle

/-- A child of a node after one was added is the one that was added, or was there before. -/
theorem mem_adopt {child added : Child} {family : Opened}
    (hfamily : family ∈ Draft.adopt added opened) (hchild : child ∈ family.children) :
    (child = added ∧ opened.head?.map Opened.node = some family.node) ∨
      ∃ before ∈ opened, before.node = family.node ∧ child ∈ before.children := by
  cases opened with
  | nil => exact absurd hfamily List.not_mem_nil
  | cons innermost outer =>
    rcases List.mem_cons.mp hfamily with rfl | hfamily
    · rcases List.mem_append.mp hchild with hchild | hchild
      · exact .inr ⟨innermost, List.mem_cons_self, rfl, hchild⟩
      · exact .inl ⟨List.mem_singleton.mp hchild, rfl⟩
    · exact .inr ⟨family, List.mem_cons_of_mem _ hfamily, rfl, hchild⟩

/-- Adding a child leaves every child with its parent, if the one that is added is. -/
theorem belongs_adopt {closed : List Closed} {tokens : List Cell} {nodes : List Entry}
    (added : Child)
    (h : ∀ family ∈ families closed opened, ∀ child ∈ family.children,
      Belongs tokens nodes family.node child)
    (hadded : ∀ parent, opened.head?.map Opened.node = some parent →
      Belongs tokens nodes parent added) :
    ∀ family ∈ families closed (Draft.adopt added opened), ∀ child ∈ family.children,
      Belongs tokens nodes family.node child := by
  intro family hfamily child hchild
  -- Only the innermost open family has got another child.
  rcases List.mem_append.mp hfamily with hfamily | hfamily
  · exact h family (List.mem_append_left _ hfamily) child hchild
  · rcases mem_adopt opened hfamily hchild with ⟨rfl, hparent⟩ | ⟨before, hbefore, hnode, hmem⟩
    · exact hadded family.node hparent
    · exact hnode ▸ h before (List.mem_append_right _ hbefore) child hmem

end Adopt

/-- What is in a row with one more item at its end. -/
theorem of_getElem?_concat {α : Type} {items : List α} {item other : α} {index : Nat}
    (h : (items ++ [item])[index]? = some other) :
    items[index]? = some other ∨ (index = items.length ∧ other = item) := by
  rcases Nat.lt_trichotomy index items.length with hlt | rfl | hlt
  · rw [List.getElem?_append_left hlt] at h
    exact .inl h
  · rw [List.getElem?_concat_length] at h
    exact .inr ⟨rfl, (Option.some.inj h).symm⟩
  · rw [List.getElem?_eq_none (by rw [List.length_append, List.length_singleton]; omega)] at h
    cases h

/-- Of empty lists the first is empty, and so is what stands for it where there are none. -/
theorem headD_eq_nil {α : Type} {lists : List (List α)} (h : ∀ list ∈ lists, list = []) :
    lists.headD [] = [] := by
  rcases lists with _ | ⟨list, lists⟩
  · rfl
  · exact h list List.mem_cons_self

namespace Valid

variable {draft : Draft} {closed : List Closed}

/-- No node is both open and finished. -/
theorem ne_of_closed (h : Valid draft closed) {node : Closed} {opened : Opened}
    (hnode : node ∈ closed) (hopened : opened ∈ draft.opened) : node.node ≠ opened.node := by
  have hnodup := h.numbers.nodup_iff.mpr List.nodup_range
  rw [families, List.map_append, List.nodup_append] at hnodup
  refine hnodup.2.2 _ ?_ _ (List.mem_map_of_mem hopened)
  exact List.mem_map_of_mem (List.mem_map_of_mem hnode)

theorem lt_of_opened (h : Valid draft closed) {opened : Opened} (hopened : opened ∈ draft.opened) :
    opened.node < draft.nodes.length := by
  rw [← List.mem_range, ← h.numbers.mem_iff, families, List.map_append]
  exact List.mem_append_right _ (List.mem_map_of_mem hopened)

/-- A list of children that is handed on is empty. -/
theorem headD_spare (h : Valid draft closed) : draft.spare.headD [] = [] := headD_eq_nil h.spare

/-! ### A node starts -/

section Start

variable (kind : Kind) (h : Valid draft closed)

include h

/-- A node that starts has the innermost open node as its parent, which is in front of it. -/
theorem parents_entered (hroot : draft.opened = [] → draft.nodes = []) (index : Nat) (entry : Entry)
    (hentry : (draft.entered kind).nodes[index]? = some entry) :
    (entry.parent? = none ↔ index = 0) ∧ ∀ parent, entry.parent? = some parent → parent < index := by
  rcases of_getElem?_concat hentry with hentry | ⟨rfl, rfl⟩
  · exact h.parents index entry hentry
  · rcases hopened : draft.opened with _ | ⟨innermost, outer⟩
    · simp [Draft.started, hopened, hroot hopened]
    · have hlt : innermost.node < draft.nodes.length :=
        h.lt_of_opened (hopened ▸ List.mem_cons_self)
      simp only [Draft.started, hopened, List.head?_cons, Option.map_some, Option.some.injEq,
        reduceCtorEq, false_iff]
      exact ⟨by omega, fun parent hparent => hparent ▸ hlt⟩

theorem offsets_entered (index : Nat) (entry : Entry)
    (hentry : (draft.entered kind).nodes[index]? = some entry) :
    entry.tokensStart ≤ draft.tokens.length ∧
      entry.offset = position draft.tokens entry.tokensStart := by
  rcases of_getElem?_concat hentry with hentry | ⟨rfl, rfl⟩
  · exact h.offsets index entry hentry
  · have hsize := size_eq_position h.tile
    rw [Nat.zero_add] at hsize
    exact ⟨Nat.le_refl _, hsize⟩

theorem numbers_entered :
    ((families closed (draft.entered kind).opened).map Opened.node).Perm
      (List.range (draft.entered kind).nodes.length) := by
  rw [Draft.entered, List.length_append, List.length_singleton, List.range_succ, families,
    List.map_append, List.map_cons, map_node_adopt]
  refine List.perm_middle.trans (.trans (.cons _ ?_) (List.perm_append_singleton _ _).symm)
  rw [← List.map_append]
  exact h.numbers

/-- A node that starts is listed in the innermost open node, if there is one. -/
theorem listed_entered (hroot : draft.opened = [] → draft.nodes = []) :
    (((families closed (draft.entered kind).opened).flatMap Opened.children).filterMap
      Child.node?).Perm (List.range' 1 ((draft.entered kind).nodes.length - 1)) := by
  have hlisted := h.listed
  rw [families, List.flatMap_append, List.filterMap_append] at hlisted ⊢
  rw [Draft.entered, h.headD_spare, List.length_append, List.length_singleton, Nat.add_sub_cancel,
    List.flatMap_cons, List.nil_append]
  by_cases hopened : draft.opened = []
  · -- The first node is listed nowhere, and numbering begins behind it.
    rw [hroot hopened, hopened] at hlisted ⊢
    exact hlisted
  · have hpos : 0 < draft.nodes.length := by
      rcases List.exists_mem_of_ne_nil _ hopened with ⟨opened, hmem⟩
      exact Nat.lt_of_le_of_lt (Nat.zero_le _) (h.lt_of_opened hmem)
    refine ((nodes_adopt_node draft.opened draft.nodes.length hopened).append_left _).trans ?_
    refine List.perm_middle.trans ((hlisted.cons _).trans ?_)
    rw [range'_eq_concat hpos]
    exact (List.perm_append_singleton _ _).symm

theorem belongs_entered : ∀ family ∈ families closed (draft.entered kind).opened,
    ∀ child ∈ family.children,
      Belongs draft.tokens (draft.entered kind).nodes family.node child := by
  have hadopted := belongs_adopt draft.opened (.node draft.nodes.length)
    (fun family hfamily child hchild => (h.belongs family hfamily child hchild).mono
      List.prefix_rfl (keeps_append draft.nodes [draft.started kind]))
    (fun parent hparent => ⟨_, List.getElem?_concat_length, hparent⟩)
  -- Besides, there is the new node itself, which has no children yet.
  intro family hfamily child hchild
  rw [families, Draft.entered, h.headD_spare] at hfamily
  rcases List.mem_append.mp hfamily with hfamily | hfamily
  · exact hadopted family (List.mem_append_left _ hfamily) child hchild
  rcases List.mem_cons.mp hfamily with rfl | hfamily
  · exact absurd hchild List.not_mem_nil
  · exact hadopted family (List.mem_append_right _ hfamily) child hchild

theorem chain_entered : Chain closed draft.tokens (draft.entered kind).nodes draft.tokens.length []
    (draft.entered kind).opened := by
  rw [Draft.entered, h.headD_spare]
  have hchain := h.chain.mono List.prefix_rfl List.prefix_rfl
    (keeps_append draft.nodes [draft.started kind])
  exact .cons List.getElem?_concat_length rfl (.nil _) (hchain.adopt _)

theorem startNode (hroot : draft.opened = [] → draft.nodes = []) :
    Valid (draft.entered kind) closed where
  tile := h.tile
  groups := h.groups
  parents := h.parents_entered kind hroot
  offsets := h.offsets_entered kind
  numbers := h.numbers_entered kind
  listed := h.listed_entered kind hroot
  belongs := h.belongs_entered kind
  row := h.row
  -- The records of finished nodes are in front of the new one.
  recorded index node hnode := by
    rcases h.recorded index node hnode with ⟨entry, hentry, hrecorded⟩
    exact ⟨entry, getElem?_of_prefix (List.prefix_append _ _) hentry, hrecorded⟩
  chain := h.chain_entered kind
  spare children hchildren := h.spare children (List.mem_of_mem_tail hchildren)

end Start

/-! ### A token is taken -/

theorem pushToken {innermost : Opened} {outer : List Opened} {leading : List Builder.TriviaSize}
    {kind : Kind} {size : Nat} {trailing : List Builder.TriviaSize} (h : Valid draft closed)
    (hopened : draft.opened = innermost :: outer) (hkind : kind.isTrivia = false) :
    Valid (draft.taken innermost.node leading kind size trailing) closed := by
  have htokens : draft.tokens <+:
      (draft.taken innermost.node leading kind size trailing).tokens := List.prefix_append _ _
  have hcell := draft.getElem?_taken innermost.node leading kind size trailing
  -- A token changes the row of cells and the children of the innermost node; the rest stays.
  refine { h with
    tile := ?tile, groups := ?groups, offsets := ?offsets, numbers := ?numbers, listed := ?listed,
    belongs := ?belongs, recorded := ?recorded, chain := ?chain }
  case tile =>
    rw [Draft.taken, List.map_append]
    exact h.tile.append (tile_tokenCells _ _ _ _ _ _ _)
  case groups =>
    refine h.groups.append ?_
    rw [Nat.zero_add]
    exact groups_tokenCells _ _ _ _ _ _ hkind
  case offsets =>
    intro index entry hentry
    rcases h.offsets index entry hentry with ⟨hle, hoffset⟩
    refine ⟨Nat.le_trans hle htokens.length_le, ?_⟩
    rw [Draft.taken, position_append _ hle]
    exact hoffset
  case numbers =>
    rw [families, List.map_append, Draft.taken, map_node_adopt, ← List.map_append]
    exact h.numbers
  case listed =>
    rw [families, List.flatMap_append, List.filterMap_append, Draft.taken, nodes_adopt_token,
      ← List.filterMap_append, ← List.flatMap_append]
    exact h.listed
  case belongs =>
    refine belongs_adopt draft.opened _ (fun family hfamily child hchild =>
      (h.belongs family hfamily child hchild).mono htokens (keeps_refl _)) fun parent hparent => ?_
    rw [hopened] at hparent
    exact ⟨_, hcell, hkind, Option.some.inj hparent⟩
  case recorded =>
    intro index node hnode
    rcases h.recorded index node hnode with ⟨entry, hentry, hrecorded⟩
    exact ⟨entry, hentry, hrecorded.mono List.prefix_rfl htokens⟩
  case chain =>
    have hlength : (draft.taken innermost.node leading kind size trailing).tokens.length =
        draft.tokens.length + (leading.length + 1 + trailing.length) := by
      rw [Draft.taken, List.length_append, length_tokenCells]
    have hchain := (h.chain.mono List.prefix_rfl htokens (keeps_refl _)).adopt
      (.token (draft.tokens.length + leading.length))
    have hcovers : Covers closed (draft.taken innermost.node leading kind size trailing).tokens
        (.token (draft.tokens.length + leading.length))
        ⟨draft.tokens.length, leading.length + 1 + trailing.length⟩ :=
      ⟨_, hcell, by rw [Nat.add_sub_cancel]⟩
    rw [hlength]
    exact hchain.count hcovers rfl

/-! ### A node finishes -/

section Finish

variable {innermost : Opened} {outer : List Opened}

/-- What the innermost open node covers, and where the nodes around it stand. -/
theorem exists_innermost (h : Valid draft closed) (hopened : draft.opened = innermost :: outer) :
    ∃ (entry : Entry) (span : Span), draft.nodes[innermost.node]? = some entry ∧
      span.start = entry.tokensStart ∧ span.stop = draft.tokens.length ∧
      Spread closed draft.tokens span.start span.stop innermost.children ∧
      Chain closed draft.tokens draft.nodes span.start [.node innermost.node] outer := by
  have hchain := h.chain
  rw [hopened] at hchain
  cases hchain with
  | @cons _ _ done _ entry _ hentry hchildren hdone houter =>
    rw [List.append_nil] at hchildren
    subst hchildren
    have hstop := Nat.add_sub_of_le hdone.le
    refine ⟨entry, ⟨entry.tokensStart, draft.tokens.length - entry.tokensStart⟩, hentry, rfl,
      hstop, ?_, houter⟩
    rw [Span.stop, hstop]
    exact hdone

/-- The records of the finished nodes stay, and the node that finishes gets its own. -/
theorem recorded_exited (h : Valid draft closed) (hopened : draft.opened = innermost :: outer)
    {entry : Entry} {span : Span} (hentry : draft.nodes[innermost.node]? = some entry)
    (hstart : span.start = entry.tokensStart) (hstop : span.stop = draft.tokens.length)
    (hspread : Spread closed draft.tokens span.start span.stop innermost.children) (index : Nat)
    (node : Closed) (hnode : (closed ++ [⟨innermost, span⟩])[index]? = some node) :
    ∃ record, (draft.exited innermost outer).nodes[node.node]? = some record ∧
      node.Recorded (closed ++ [⟨innermost, span⟩])
        ((closed ++ [(⟨innermost, span⟩ : Closed)]).take index) draft.tokens record := by
  have hclosed := List.prefix_append closed [(⟨innermost, span⟩ : Closed)]
  rcases of_getElem?_concat hnode with hnode | ⟨rfl, rfl⟩
  · -- The node that finishes was open until now, so the record of this one is not touched.
    have hlt := (List.getElem?_eq_some_iff.mp hnode).1
    have hne := h.ne_of_closed (List.mem_of_getElem? hnode) (hopened ▸ List.mem_cons_self)
    rcases h.recorded index node hnode with ⟨record, hrecord, hrecorded⟩
    refine ⟨record, (List.getElem?_modify_ne _ _ (Ne.symm hne)).trans hrecord, ?_⟩
    rw [List.take_append_of_le_length (Nat.le_of_lt hlt)]
    exact hrecorded.mono hclosed List.prefix_rfl
  · refine ⟨draft.finished innermost.children entry,
      (List.getElem?_modify_eq _ _ _).trans (congrArg _ hentry), ?_⟩
    rw [List.take_left]
    exact ⟨congrArg List.length h.row, rfl, hstart.symm, hstop.symm,
      hspread.mono hclosed List.prefix_rfl, Nat.le_of_eq hstop⟩

theorem finishNode (h : Valid draft closed) (hopened : draft.opened = innermost :: outer) :
    ∃ span, Valid (draft.exited innermost outer) (closed ++ [⟨innermost, span⟩]) := by
  rcases h.exists_innermost hopened with ⟨entry, span, hentry, hstart, hstop, hspread, houter⟩
  -- Finishing moves a node from the open to the finished ones, and the families stay as they are.
  have hfamilies : families (closed ++ [⟨innermost, span⟩]) outer =
      families closed draft.opened := by
    rw [families, families, hopened, List.map_append, List.append_assoc]
    rfl
  have hkeeps := keeps_finished draft.nodes draft innermost.children innermost.node
  -- The record of the node is written, and the node is now counted among its siblings.
  refine ⟨span, { h with
    parents := ?parents, offsets := ?offsets, numbers := ?numbers, listed := ?listed,
    belongs := ?belongs, row := ?row, chain := ?chain, spare := ?spare
    recorded := h.recorded_exited hopened hentry hstart hstop hspread }⟩
  case parents =>
    intro index after hafter
    rcases of_finished hafter with ⟨before, hbefore, hparent, -, -⟩
    rw [hparent]
    exact h.parents index before hbefore
  case offsets =>
    intro index after hafter
    rcases of_finished hafter with ⟨before, hbefore, -, hstart, hoffset⟩
    rw [hstart, hoffset]
    exact h.offsets index before hbefore
  case numbers =>
    rw [Draft.exited, hfamilies, List.length_modify]
    exact h.numbers
  case listed =>
    rw [Draft.exited, hfamilies, List.length_modify]
    exact h.listed
  case belongs =>
    intro family hfamily child hchild
    rw [Draft.exited, hfamilies] at hfamily
    exact (h.belongs family hfamily child hchild).mono List.prefix_rfl hkeeps
  case row =>
    rw [Draft.exited, h.row, List.flatMap_append, List.flatMap_singleton]
  case chain =>
    have hcovers : Covers (closed ++ [⟨innermost, span⟩]) draft.tokens (.node innermost.node)
        span :=
      ⟨innermost.children, List.mem_append_right _ (List.mem_singleton_self _)⟩
    have hcounted := (houter.mono (List.prefix_append closed _) List.prefix_rfl hkeeps).count
      hcovers rfl
    rw [hstop] at hcounted
    exact hcounted
  case spare =>
    intro children hchildren
    rcases List.mem_cons.mp hchildren with rfl | hchildren
    · rfl
    · exact h.spare children hchildren

end Finish

end Valid

end Table

end PhpAssist

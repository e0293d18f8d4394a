import Mathlib.Data.List.Nodup
import PhpAssist.Proofs.Drafts

/-!
# What a finished table is

Every node of a finished table was finished once, and so every node has a stretch of the row of
children of its own, behind those of the nodes that finished before it. Which node a child belongs
to is said in two places, by the stretch that it is in and by the parent that it names, and they
agree.

What a node covers is what its children cover, one behind the other, and since the cells of the row
of tokens stand in the text one behind the other as well, the same holds of where they stand.

## Main definitions

* `Table.extent`: The stretch of the row of tokens that a child covers.
* `Table.WellFormed`: What a finished table is.

## Theorems

* `Table.Valid.wellFormed`: A table in the making that has no open nodes is what it should be.
-/

namespace PhpAssist

namespace Table

/-- The stretch of the row of tokens that a child covers. A token covers itself and its trivia. -/
def extent (table : Table) : Child → Span
  | .node index =>
    match table.nodes[index]? with
    | some entry => ⟨entry.tokensStart, entry.tokensEnd - entry.tokensStart⟩
    | none => default
  | .token index =>
    match table.tokens[index]? with
    | some cell => ⟨index - cell.leading, cell.leading + 1 + cell.trailing⟩
    | none => default

/-- What a finished table is. -/
structure WellFormed (table : Table) : Prop where
  /-- Tokens and trivia stand in the text one behind the other, from its beginning on. -/
  contiguous : ∃ stop, Span.Tile 0 stop (table.tokens.map Cell.span)
  /-- The counts of a token tell which trivia are its own. -/
  owned : ∀ (index : Nat) (cell : Cell), table.tokens[index]? = some cell →
    cell.kind.isTrivia = false → cell.owner = index ∧ cell.leading ≤ index ∧
      index + cell.trailing < table.tokens.length ∧
      ∀ (near : Nat) (other : Cell), table.tokens[near]? = some other →
        (other.kind.isTrivia = true ∧ other.owner = index ↔
          near ≠ index ∧ index ≤ near + cell.leading ∧ near ≤ index + cell.trailing)
  /-- What trivia name as their owner is a token. -/
  owner : ∀ cell ∈ table.tokens, ∃ token : Cell, table.tokens[cell.owner]? = some token ∧
    token.kind.isTrivia = false
  rooted : table.nodes ≠ []
  /-- The first node has no parent, and every other one has a parent before it. -/
  parent : ∀ (index : Nat) (entry : Entry), table.nodes[index]? = some entry →
    (entry.parent? = none ↔ index = 0) ∧ ∀ parent, entry.parent? = some parent → parent < index
  /-- A node is listed once among the children of its parent, and nowhere else. -/
  listed : ∀ (index : Nat) (entry : Entry) (number : Nat) (node : Entry),
    table.nodes[index]? = some entry → table.nodes[number]? = some node →
      (table.childrenOf entry).count (.node number) =
        if node.parent? = some index then 1 else 0
  /-- The children of a node are nodes and tokens that name it as their parent. -/
  belongs : ∀ (index : Nat) (entry : Entry), table.nodes[index]? = some entry →
    ∀ child ∈ table.childrenOf entry, Belongs table.tokens table.nodes index child
  within : ∀ entry ∈ table.nodes,
    entry.childrenStart + entry.childrenLength ≤ table.children.length
  /-- The stretches that two nodes have in the row of children do not overlap. -/
  apart : ∀ (index other : Nat) (entry another : Entry), table.nodes[index]? = some entry →
    table.nodes[other]? = some another → index ≠ other →
      entry.childrenStart + entry.childrenLength ≤ another.childrenStart ∨
        another.childrenStart + another.childrenLength ≤ entry.childrenStart
  /-- A node covers what its children cover, one behind the other. -/
  covered : ∀ entry ∈ table.nodes, entry.tokensEnd ≤ table.tokens.length ∧
    Span.Tile entry.tokensStart entry.tokensEnd ((table.childrenOf entry).map table.extent)
  /-- A node stands where its children stand, one behind the other. -/
  ranged : ∀ entry ∈ table.nodes, Span.Tile (table.nodeSpan entry).start
    (table.nodeSpan entry).stop ((table.childrenOf entry).map table.childSpan)

/-! ## From tokens to the text -/

/-- Stretches of numbers become stretches of a text when every number stands for an offset. -/
def along (offset : Nat → Nat) (span : Span) : Span :=
  ⟨offset span.start, offset span.stop - offset span.start⟩

theorem tile_along {offset : Nat → Nat} (hmono : ∀ {a b : Nat}, a ≤ b → offset a ≤ offset b)
    {first last : Nat} {spans : List Span} (h : Span.Tile first last spans) :
    Span.Tile (offset first) (offset last) (spans.map (along offset)) := by
  induction h with
  | nil first => exact .nil _
  | @cons span stop more _ ih =>
    have hstop : (along offset span).stop = offset span.stop :=
      Nat.add_sub_of_le (hmono (Nat.le_add_right _ _))
    rw [← hstop] at ih
    exact @Span.Tile.cons (along offset span) _ _ ih

/-! ## Finished nodes -/

namespace Valid

variable {draft : Draft} {closed : List Closed}

/-- Every node was finished when none is open. -/
theorem exists_closed (h : Valid draft closed) (hopened : draft.opened = []) {index : Nat}
    {entry : Entry} (hentry : draft.nodes[index]? = some entry) :
    ∃ (place : Nat) (node : Closed), closed[place]? = some node ∧ node.node = index ∧
      node.Recorded closed (closed.take place) draft.tokens entry := by
  have hmem : index ∈ (families closed draft.opened).map Opened.node := by
    rw [h.numbers.mem_iff, List.mem_range]
    exact (List.getElem?_eq_some_iff.mp hentry).1
  rw [families, hopened, List.append_nil, List.map_map] at hmem
  rcases List.mem_map.mp hmem with ⟨node, hnode, rfl⟩
  rcases List.getElem?_of_mem hnode with ⟨place, hplace⟩
  rcases h.recorded place node hplace with ⟨record, hrecord, hrecorded⟩
  cases Option.some.inj (hrecord.symm.trans hentry)
  exact ⟨place, node, hplace, rfl, hrecorded⟩

/-- The children of a node are found in the row of children. -/
theorem childrenOf_eq (h : Valid draft closed) {place : Nat} {node : Closed} {entry : Entry}
    (hplace : closed[place]? = some node)
    (hrecorded : node.Recorded closed (closed.take place) draft.tokens entry) :
    draft.table.childrenOf entry = node.children := by
  have hsplit : closed = closed.take place ++ node :: closed.drop (place + 1) := by
    rcases List.getElem?_eq_some_iff.mp hplace with ⟨hlt, hget⟩
    rw [← hget, ← List.drop_eq_getElem_cons hlt, List.take_append_drop]
  have hrow := h.row
  rw [hsplit, List.flatMap_append, List.flatMap_cons] at hrow
  rw [childrenOf, Draft.table, hrow, hrecorded.childrenStart, hrecorded.childrenLength,
    List.drop_left, List.take_left]

theorem extent_eq (h : Valid draft closed) {child : Child} {span : Span}
    (hcovers : Covers closed draft.tokens child span) : draft.table.extent child = span := by
  cases child with
  | node index =>
    rcases hcovers with ⟨children, hmem⟩
    -- What was closed has its record, and the record holds its bounds.
    rcases List.getElem?_of_mem hmem with ⟨place, hplace⟩
    rcases h.recorded place _ hplace with ⟨entry, hentry, hrecorded⟩
    have hstart := hrecorded.tokensStart
    have hend := hrecorded.tokensEnd
    dsimp only at hentry hstart hend
    rw [extent, Draft.table, hentry]
    dsimp only
    rw [hstart, hend, Span.stop, Nat.add_sub_cancel_left]
  | token index =>
    rcases hcovers with ⟨cell, hcell, rfl⟩
    rw [extent, Draft.table, hcell]

theorem tile_extents (h : Valid draft closed) {first last : Nat} {children : List Child}
    (hspread : Spread closed draft.tokens first last children) :
    Span.Tile first last (children.map draft.table.extent) := by
  induction hspread with
  | nil first => exact .nil first
  | cons hchild _ ih =>
    rw [List.map_cons, h.extent_eq hchild]
    exact .cons ih

/-- Two finished nodes with one number are one. -/
theorem closed_unique (h : Valid draft closed) {node other : Closed} (hnode : node ∈ closed)
    (hother : other ∈ closed) (heq : node.node = other.node) : node = other := by
  have hnodup := h.numbers.nodup_iff.mpr List.nodup_range
  rw [families, List.map_append, List.map_map, List.nodup_append] at hnodup
  exact List.inj_on_of_nodup_map hnodup.1 hnode hother heq

/-- A node is among the children of another at most once. -/
theorem count_le (h : Valid draft closed) {node : Closed} (hnode : node ∈ closed) (number : Nat) :
    node.children.count (.node number) ≤ 1 := by
  have hnodup := h.listed.nodup_iff.mpr List.nodup_range'
  have hfamily : node.toOpened ∈ families closed draft.opened :=
    List.mem_append_left _ (List.mem_map_of_mem hnode)
  have hsublist : node.children.Sublist ((families closed draft.opened).flatMap Opened.children) :=
    List.sublist_flatten_of_mem (List.mem_map_of_mem hfamily)
  have hcount : node.children.count (.node number) =
      (node.children.filterMap Child.node?).count number := by
    rw [List.count_filterMap, List.count]
    refine List.countP_congr fun child _ => ?_
    cases child <;> simp [Child.node?]
  rw [hcount]
  exact List.nodup_iff_count.mp (hnodup.sublist (hsublist.filterMap _)) number

/-- A node that names a parent is among the children of the parent. -/
theorem mem_children (h : Valid draft closed) (hopened : draft.opened = []) {node : Closed}
    (hnode : node ∈ closed) {number : Nat} {entry : Entry}
    (hentry : draft.nodes[number]? = some entry) (hparent : entry.parent? = some node.node) :
    .node number ∈ node.children := by
  have hmem : number ∈
      ((families closed draft.opened).flatMap Opened.children).filterMap Child.node? := by
    have hlt := (List.getElem?_eq_some_iff.mp hentry).1
    have hne : number ≠ 0 := fun hzero => by
      rw [(h.parents number entry hentry).1.mpr hzero] at hparent
      cases hparent
    rw [h.listed.mem_iff, List.mem_range'_1]
    omega
  -- Every node but the first is a child of some family, and that family names its parent.
  rcases List.mem_filterMap.mp hmem with ⟨child, hchild, hnumber⟩
  rcases List.mem_flatMap.mp hchild with ⟨family, hfamily, hchild⟩
  cases child with
  | token index => cases hnumber
  | node index =>
    cases hnumber
    rcases h.belongs family hfamily _ hchild with ⟨record, hrecord, hbelongs⟩
    rw [hentry] at hrecord
    cases hrecord
    -- Nothing is open any more, so the family is one of a closed node.
    rw [families, hopened, List.append_nil] at hfamily
    rcases List.mem_map.mp hfamily with ⟨other, hother, rfl⟩
    have heq := h.closed_unique hnode hother (Option.some.inj (hparent.symm.trans hbelongs))
    rwa [heq]

theorem count_children (h : Valid draft closed) (hopened : draft.opened = []) {node : Closed}
    (hnode : node ∈ closed) {number : Nat} {entry : Entry}
    (hentry : draft.nodes[number]? = some entry) :
    node.children.count (.node number) = if entry.parent? = some node.node then 1 else 0 := by
  split
  -- A child is listed, and no child is listed twice.
  · rename_i hparent
    have hpos := List.count_pos_iff.mpr (h.mem_children hopened hnode hentry hparent)
    have hle := h.count_le hnode number
    omega
  · rename_i hparent
    refine List.count_eq_zero.mpr fun hmem => hparent ?_
    rcases h.belongs node.toOpened (List.mem_append_left _ (List.mem_map_of_mem hnode)) _ hmem with
      ⟨record, hrecord, hbelongs⟩
    rw [hentry] at hrecord
    cases hrecord
    exact hbelongs

/-- The children of a node are in front of those of the nodes that finished later. -/
theorem children_le {place later : Nat} {node : Closed} {entry : Entry}
    (hplace : closed[place]? = some node)
    (hnode : node.Recorded closed (closed.take place) draft.tokens entry) (hlt : place < later) :
    entry.childrenStart + entry.childrenLength ≤
      ((closed.take later).flatMap (·.children)).length := by
  rcases List.take_prefix_take_left (l := closed) hlt with ⟨rest, hrest⟩
  rw [List.take_add_one, hplace] at hrest
  rw [hnode.childrenStart, hnode.childrenLength, ← hrest]
  simp only [List.flatMap_append, List.length_append, Option.toList_some, List.flatMap_cons,
    List.flatMap_nil, List.append_nil]
  omega

/-- A node stands where the tokens stand that it covers, also when it covers none. -/
theorem nodeSpan_eq (h : Valid draft closed) {index : Nat} {entry : Entry}
    (hentry : draft.nodes[index]? = some entry) (hle : entry.tokensStart ≤ entry.tokensEnd)
    (hend : entry.tokensEnd ≤ draft.tokens.length) :
    draft.table.nodeSpan entry = along (position draft.tokens)
      ⟨entry.tokensStart, entry.tokensEnd - entry.tokensStart⟩ := by
  have hstop : (⟨entry.tokensStart, entry.tokensEnd - entry.tokensStart⟩ : Span).stop =
      entry.tokensEnd := Nat.add_sub_of_le hle
  rw [nodeSpan, along, hstop]
  split
  -- A node without tokens stands where the next token begins.
  · rename_i heq
    rw [(h.offsets index entry hentry).2, ← heq]
    dsimp only
    rw [Nat.sub_self]
    rfl
  · rw [@cover_cells draft.table _ _ _ h.tile (by omega) (Nat.lt_of_lt_of_le (by omega) hend),
      Nat.sub_add_cancel (by omega)]
    rfl

/-- What a node covers lies in the row of tokens. -/
theorem covered (h : Valid draft closed) (hopened : draft.opened = []) {index : Nat} {entry : Entry}
    (hentry : draft.nodes[index]? = some entry) :
    entry.tokensStart ≤ entry.tokensEnd ∧ entry.tokensEnd ≤ draft.tokens.length ∧
      Span.Tile entry.tokensStart entry.tokensEnd
        ((draft.table.childrenOf entry).map draft.table.extent) := by
  rcases h.exists_closed hopened hentry with ⟨place, node, hplace, -, hrecorded⟩
  rw [h.childrenOf_eq hplace hrecorded, hrecorded.tokensStart, hrecorded.tokensEnd]
  exact ⟨hrecorded.spread.le, hrecorded.le, h.tile_extents hrecorded.spread⟩

/-- A child stands where the tokens stand that it covers. -/
theorem childSpan_eq (h : Valid draft closed) (hopened : draft.opened = []) {parent : Nat}
    {child : Child} (hchild : Belongs draft.tokens draft.nodes parent child) :
    draft.table.childSpan child = along (position draft.tokens) (draft.table.extent child) := by
  cases child with
  | node index =>
    rcases hchild with ⟨entry, hentry, -⟩
    rcases h.covered hopened hentry with ⟨hle, hend, -⟩
    rw [childSpan, extent, Draft.table, hentry]
    exact h.nodeSpan_eq hentry hle hend
  -- A token covers the trivia that it owns as well.
  | token index =>
    rcases hchild with ⟨cell, hcell, hkind, -⟩
    rcases h.groups.owned hcell hkind with ⟨-, hle, hlt, -⟩
    have hstop : (⟨index - cell.leading, cell.leading + 1 + cell.trailing⟩ : Span).stop =
        index + cell.trailing + 1 := by
      simp only [Span.stop]
      omega
    have hcover := @cover_cells draft.table _ (index - cell.leading) (index + cell.trailing) h.tile
      (by omega) hlt
    rw [childSpan, tokenSpan, extent, Draft.table, hcell]
    dsimp only
    rw [along, hstop]
    exact hcover

/-- What is found in the row of children as the children of a node belongs to the node. -/
theorem belongs_childrenOf (h : Valid draft closed) (hopened : draft.opened = []) {index : Nat}
    {entry : Entry} (hentry : draft.nodes[index]? = some entry) {child : Child}
    (hchild : child ∈ draft.table.childrenOf entry) :
    Belongs draft.tokens draft.nodes index child := by
  rcases h.exists_closed hopened hentry with ⟨place, found, hplace, rfl, hrecorded⟩
  rw [h.childrenOf_eq hplace hrecorded] at hchild
  exact h.belongs found.toOpened (List.mem_append_left _
    (List.mem_map_of_mem (List.mem_of_getElem? hplace))) child hchild

/-- Two nodes have stretches of the row of children that do not overlap. -/
theorem apart (h : Valid draft closed) (hopened : draft.opened = []) {index other : Nat}
    {entry another : Entry} (hentry : draft.nodes[index]? = some entry)
    (hanother : draft.nodes[other]? = some another) (hne : index ≠ other) :
    entry.childrenStart + entry.childrenLength ≤ another.childrenStart ∨
      another.childrenStart + another.childrenLength ≤ entry.childrenStart := by
  rcases h.exists_closed hopened hentry with ⟨place, found, hplace, hfound, hrecorded⟩
  rcases h.exists_closed hopened hanother with ⟨later, second, hlater, hsecond, hrecorded'⟩
  -- Which of the two stretches is in front is decided by which node finished first.
  rcases Nat.lt_trichotomy place later with hlt | rfl | hlt
  · rw [hrecorded'.childrenStart]
    exact .inl (children_le hplace hrecorded hlt)
  · rw [hplace] at hlater
    cases hlater
    exact absurd (hfound.symm.trans hsecond) hne
  · rw [hrecorded.childrenStart]
    exact .inr (children_le hlater hrecorded' hlt)

/-- A node stands where its children stand, since it covers what they cover. -/
theorem ranged (h : Valid draft closed) (hopened : draft.opened = []) {index : Nat} {entry : Entry}
    (hentry : draft.nodes[index]? = some entry) :
    Span.Tile (draft.table.nodeSpan entry).start (draft.table.nodeSpan entry).stop
      ((draft.table.childrenOf entry).map draft.table.childSpan) := by
  rcases h.covered hopened hentry with ⟨hle, hend, htile⟩
  have hstop : (along (position draft.tokens)
      ⟨entry.tokensStart, entry.tokensEnd - entry.tokensStart⟩).stop =
        position draft.tokens entry.tokensEnd := by
    rw [Span.stop, along, Span.stop, Nat.add_sub_of_le hle]
    exact Nat.add_sub_of_le (position_mono _ hle)
  -- The spans of the children are the images of their ranges of tokens, which tile already.
  have hspans : (draft.table.childrenOf entry).map draft.table.childSpan =
      ((draft.table.childrenOf entry).map draft.table.extent).map
        (along (position draft.tokens)) := by
    rw [List.map_map]
    exact List.map_congr_left fun child hchild =>
      h.childSpan_eq hopened (h.belongs_childrenOf hopened hentry hchild)
  rw [h.nodeSpan_eq hentry hle hend, hstop, hspans]
  exact tile_along (fun hle => position_mono draft.tokens hle) htile

/-- A table without open nodes is what it should be. -/
theorem wellFormed (h : Valid draft closed) (hopened : draft.opened = [])
    (hnodes : draft.nodes ≠ []) : draft.table.WellFormed where
  contiguous := ⟨draft.size, h.tile⟩
  owned index cell hcell hkind := by
    have howned := h.groups.owned hcell hkind
    rwa [Nat.zero_add] at howned
  owner cell hcell := by
    rcases h.groups.exists_owner hcell with ⟨index, other, howner, hother, hkind⟩
    rw [Nat.zero_add] at howner
    exact ⟨other, howner ▸ hother, hkind⟩
  rooted := hnodes
  parent := h.parents
  listed index entry number node hentry hnode := by
    rcases h.exists_closed hopened hentry with ⟨place, found, hplace, rfl, hrecorded⟩
    rw [h.childrenOf_eq hplace hrecorded]
    exact h.count_children hopened (List.mem_of_getElem? hplace) hnode
  belongs index entry hentry child hchild := h.belongs_childrenOf hopened hentry hchild
  within entry hentry := by
    rcases List.getElem?_of_mem hentry with ⟨index, hindex⟩
    rcases h.exists_closed hopened hindex with ⟨place, found, hplace, -, hrecorded⟩
    have hle := children_le hplace hrecorded (List.getElem?_eq_some_iff.mp hplace).1
    rw [List.take_length, ← h.row] at hle
    exact hle
  apart index other entry another hentry hanother hne := h.apart hopened hentry hanother hne
  covered entry hentry := by
    rcases List.getElem?_of_mem hentry with ⟨index, hindex⟩
    exact (h.covered hopened hindex).2
  ranged entry hentry := by
    rcases List.getElem?_of_mem hentry with ⟨index, hindex⟩
    exact h.ranged hopened hindex

end Valid

end Table

end PhpAssist

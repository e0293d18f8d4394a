import Mathlib.Algebra.GroupWithZero.Nat
import PhpAssist.Proofs.Tiling
import PhpAssist.Tree.Table

/-!
# The row of tokens in a table

A step that takes a token adds a group to the row of tokens: the trivia in front of the token, the
token and the trivia behind it. All of them say the number of the token as their owner, and the
token says how many they are on each side. The row is made of such groups and nothing else, and so
the counts of a token tell which trivia are its own.

Every cell begins where the one before it ends. Where a cell begins is therefore the sum of what is
before it, and a stretch of cells stands from one such sum to another.

## Main definitions

* `Table.triviaCells`, `Table.tokenCells`: The cells that a step adds.
* `Table.Draft.entered`, `Table.Draft.taken`, `Table.Draft.exited`: What each step leaves.
* `Table.Groups`: A row that is made of groups.
* `Table.position`: Where the cell with a number begins.

## Theorems

* `Table.Groups.owned`: A token is surrounded by its own trivia and has no other.
* `Table.cover_cells`: Some cells in a row stand between two positions.
-/

namespace PhpAssist

namespace Table

/-! ## Steps -/

/-- The number of bytes in pieces of trivia. -/
def triviaSize (pieces : List Builder.TriviaSize) : Nat := (pieces.map Prod.snd).sum

/-- Pieces of trivia in a row, the first of them at an offset. -/
def triviaCells (parent owner : Nat) : Nat → List Builder.TriviaSize → List Cell
  | _, [] => []
  | offset, piece :: more =>
    ⟨piece.1.kind, ⟨offset, piece.2⟩, parent, owner, 0, 0⟩ ::
      triviaCells parent owner (offset + piece.2) more

/-- A token in a row, with its trivia. `first` is the number of the first cell and `offset` is where
    it begins. -/
def tokenCells (parent first offset : Nat) (leading : List Builder.TriviaSize) (kind : Kind)
    (size : Nat) (trailing : List Builder.TriviaSize) : List Cell :=
  let owner := first + leading.length
  let start := offset + triviaSize leading
  triviaCells parent owner offset leading ++
    ⟨kind, ⟨start, size⟩, parent, owner, leading.length, trailing.length⟩ ::
      triviaCells parent owner (start + size) trailing

/-- What a step that takes a token leaves. -/
def Draft.taken (draft : Draft) (parent : Nat) (leading : List Builder.TriviaSize) (kind : Kind)
    (size : Nat) (trailing : List Builder.TriviaSize) : Draft :=
  { draft with
    tokens := draft.tokens ++
      tokenCells parent draft.tokens.length draft.size leading kind size trailing
    opened := adopt (.token (draft.tokens.length + leading.length)) draft.opened
    size := draft.size + (triviaSize leading + size + triviaSize trailing) }

/-- The record of a node that starts. -/
def Draft.started (draft : Draft) (kind : Kind) : Entry :=
  ⟨kind, draft.opened.head?.map Opened.node, 0, 0, draft.tokens.length, draft.tokens.length,
    draft.size⟩

/-- The record of a node that finishes with some children. -/
def Draft.finished (draft : Draft) (children : List Child) (entry : Entry) : Entry :=
  { entry with
    childrenStart := draft.children.length
    childrenLength := children.length
    tokensEnd := draft.tokens.length }

/-- What a step that starts a node leaves. -/
def Draft.entered (draft : Draft) (kind : Kind) : Draft :=
  { draft with
    nodes := draft.nodes ++ [draft.started kind]
    opened := ⟨draft.nodes.length, draft.spare.headD []⟩ ::
      adopt (.node draft.nodes.length) draft.opened
    spare := draft.spare.tail }

/-- What a step that finishes the innermost open node leaves. -/
def Draft.exited (draft : Draft) (innermost : Opened) (outer : List Opened) : Draft :=
  { draft with
    nodes := draft.nodes.modify innermost.node (draft.finished innermost.children)
    children := draft.children ++ innermost.children
    opened := outer
    spare := [] :: draft.spare }

/-! ## Groups -/

/-- Trivia that belong to a token. -/
def BelongTo (owner : Nat) (cells : List Cell) : Prop :=
  ∀ cell ∈ cells, cell.kind.isTrivia = true ∧ cell.owner = owner

theorem belongTo_triviaCells (parent owner offset : Nat) (pieces : List Builder.TriviaSize) :
    BelongTo owner (triviaCells parent owner offset pieces) := by
  induction pieces generalizing offset with
  | nil => exact fun cell hcell => absurd hcell List.not_mem_nil
  | cons piece pieces ih =>
    intro cell hcell
    rcases List.mem_cons.mp hcell with rfl | hcell
    · exact ⟨by cases piece.1 <;> rfl, rfl⟩
    · exact ih _ cell hcell

theorem length_triviaCells (parent owner offset : Nat) (pieces : List Builder.TriviaSize) :
    (triviaCells parent owner offset pieces).length = pieces.length := by
  induction pieces generalizing offset with
  | nil => rfl
  | cons piece pieces ih => rw [triviaCells, List.length_cons, ih, List.length_cons]

/-- A row of cells whose first one has a number, made of tokens with their trivia around them. -/
inductive Groups : Nat → List Cell → Prop
  | nil (first : Nat) : Groups first []
  | group {first : Nat} {before behind more : List Cell} {cell : Cell}
      (hbefore : BelongTo (first + before.length) before) (hkind : cell.kind.isTrivia = false)
      (howner : cell.owner = first + before.length) (hleading : cell.leading = before.length)
      (htrailing : cell.trailing = behind.length)
      (hbehind : BelongTo (first + before.length) behind)
      (hmore : Groups (first + (before.length + 1 + behind.length)) more) :
      Groups first (before ++ cell :: (behind ++ more))

theorem Groups.append {first : Nat} {cells more : List Cell} (h : Groups first cells)
    (hmore : Groups (first + cells.length) more) : Groups first (cells ++ more) := by
  induction h with
  | nil => exact hmore
  | @group first before behind rest cell hbefore hkind howner hleading htrailing hbehind _ ih =>
    have hwhole := Groups.group hbefore hkind howner hleading htrailing hbehind (ih ?_)
    · simpa using hwhole
    · refine Eq.mp (congrArg (Groups · more) ?_) hmore
      simp only [List.length_append, List.length_cons]
      omega

theorem groups_tokenCells (parent first offset : Nat) (leading : List Builder.TriviaSize)
    {kind : Kind} (size : Nat) (trailing : List Builder.TriviaSize)
    (hkind : kind.isTrivia = false) :
    Groups first (tokenCells parent first offset leading kind size trailing) := by
  have hleading := length_triviaCells parent (first + leading.length) offset leading
  have htrailing := length_triviaCells parent (first + leading.length)
    (offset + triviaSize leading + size) trailing
  have hgroup := @Groups.group first
    (triviaCells parent (first + leading.length) offset leading)
    (triviaCells parent (first + leading.length) (offset + triviaSize leading + size) trailing) []
    ⟨kind, ⟨offset + triviaSize leading, size⟩, parent, first + leading.length, leading.length,
      trailing.length⟩
    (by rw [hleading]; exact belongTo_triviaCells _ _ _ _) hkind (by rw [hleading]) hleading.symm
    htrailing.symm (by rw [hleading]; exact belongTo_triviaCells _ _ _ _) (.nil _)
  rwa [List.append_nil] at hgroup

theorem length_tokenCells (parent first offset : Nat) (leading : List Builder.TriviaSize)
    (kind : Kind) (size : Nat) (trailing : List Builder.TriviaSize) :
    (tokenCells parent first offset leading kind size trailing).length =
      leading.length + 1 + trailing.length := by
  simp only [tokenCells, List.length_append, List.length_cons, length_triviaCells]
  omega

/-- The token among its cells. -/
theorem getElem?_tokenCells (parent first offset : Nat) (leading : List Builder.TriviaSize)
    (kind : Kind) (size : Nat) (trailing : List Builder.TriviaSize) :
    (tokenCells parent first offset leading kind size trailing)[leading.length]? =
      some ⟨kind, ⟨offset + triviaSize leading, size⟩, parent, first + leading.length,
        leading.length, trailing.length⟩ := by
  have hle := Nat.le_of_eq (length_triviaCells parent (first + leading.length) offset leading)
  rw [tokenCells, List.getElem?_append_right hle, length_triviaCells, Nat.sub_self,
    List.getElem?_cons_zero]

/-- The token that was taken. -/
theorem Draft.getElem?_taken (draft : Draft) (parent : Nat) (leading : List Builder.TriviaSize)
    (kind : Kind) (size : Nat) (trailing : List Builder.TriviaSize) :
    (draft.taken parent leading kind size trailing).tokens[
        draft.tokens.length + leading.length]? =
      some ⟨kind, ⟨draft.size + triviaSize leading, size⟩, parent,
        draft.tokens.length + leading.length, leading.length, trailing.length⟩ := by
  rw [Draft.taken, List.getElem?_append_right (Nat.le_add_right _ _), Nat.add_sub_cancel_left]
  exact getElem?_tokenCells _ _ _ _ _ _ _

/-- The cells of a group and of what is behind it, by their numbers. -/
theorem getElem?_group (before behind more : List Cell) (cell : Cell) (index : Nat) :
    (before ++ cell :: (behind ++ more))[index]? =
      if index < before.length then before[index]?
      else if index = before.length then some cell
      else if index < before.length + 1 + behind.length then behind[index - (before.length + 1)]?
      else more[index - (before.length + 1 + behind.length)]? := by
  -- In front of the token, at it, among its trivia behind, or past the group.
  split
  · rw [List.getElem?_append_left (by assumption)]
  · rw [List.getElem?_append_right (by omega)]
    split
    · rename_i hindex
      rw [hindex, Nat.sub_self, List.getElem?_cons_zero]
    · rw [show index - before.length = index - (before.length + 1) + 1 by omega,
        List.getElem?_cons_succ]
      split
      · rw [List.getElem?_append_left (by omega)]
      · rw [List.getElem?_append_right (by omega)]
        congr 1
        omega

theorem Groups.le_owner {first : Nat} {cells : List Cell} (h : Groups first cells) {cell : Cell}
    (hcell : cell ∈ cells) : first ≤ cell.owner := by
  induction h with
  | nil => exact absurd hcell List.not_mem_nil
  -- The cells of the first group belong to its token, and later groups begin behind it.
  | group hbefore _ howner _ _ hbehind _ ih =>
    rcases List.mem_append.mp hcell with hcell | hcell
    · have := (hbefore _ hcell).2
      omega
    rcases List.mem_cons.mp hcell with rfl | hcell
    · omega
    rcases List.mem_append.mp hcell with hcell | hcell
    · have := (hbehind _ hcell).2
      omega
    · have := ih hcell
      omega

/-- A token is surrounded by its own trivia and has no other. -/
theorem Groups.owned {first : Nat} {cells : List Cell} (h : Groups first cells) {index : Nat}
    {cell : Cell} (hcell : cells[index]? = some cell) (hkind : cell.kind.isTrivia = false) :
    cell.owner = first + index ∧ cell.leading ≤ index ∧ index + cell.trailing < cells.length ∧
      ∀ near other, cells[near]? = some other →
        (other.kind.isTrivia = true ∧ other.owner = first + index ↔
          near ≠ index ∧ index ≤ near + cell.leading ∧ near ≤ index + cell.trailing) := by
  -- The induction is on the groups. A cell is in the first group or behind it, and what is behind
  -- has owners behind it too, so neither sees trivia of the other.
  induction h generalizing index with
  | nil => simp at hcell
  | @group first before behind more main hbefore hmain howner hleading htrailing hbehind hmore ih =>
    have htrivia : ∀ {cells : List Cell} {owner near : Nat} {other : Cell}, BelongTo owner cells →
        cells[near]? = some other → other.kind.isTrivia = true ∧ other.owner = owner :=
      fun hcells hother => hcells _ (List.mem_of_getElem? hother)
    have hlength : (before ++ main :: (behind ++ more)).length =
        before.length + 1 + behind.length + more.length := by
      simp only [List.length_append, List.length_cons]
      omega
    rw [hlength]
    rw [getElem?_group] at hcell
    split at hcell
    · exact absurd ((htrivia hbefore hcell).1.symm.trans hkind) (by decide)
    split at hcell
    · rename_i hindex
      cases hcell
      refine ⟨by omega, by omega, by omega, fun near other hother => ?_⟩
      rw [getElem?_group] at hother
      split at hother
      · have hother := htrivia hbefore hother
        refine iff_of_true ⟨hother.1, by omega⟩ (by omega)
      split at hother
      · cases hother
        refine iff_of_false (fun hboth => ?_) (by omega)
        exact absurd (hboth.1.symm.trans hmain) (by decide)
      split at hother
      · have hother := htrivia hbehind hother
        exact iff_of_true ⟨hother.1, by omega⟩ (by omega)
      · have howner := hmore.le_owner (List.mem_of_getElem? hother)
        exact iff_of_false (by omega) (by omega)
    split at hcell
    · exact absurd ((htrivia hbehind hcell).1.symm.trans hkind) (by decide)
    · rcases ih hcell with ⟨hcell, hle, hlt, hother⟩
      refine ⟨by omega, by omega, by omega, fun near other hnear => ?_⟩
      rw [getElem?_group] at hnear
      split at hnear
      · have hnear := htrivia hbefore hnear
        exact iff_of_false (by omega) (by omega)
      split at hnear
      · cases hnear
        exact iff_of_false (by omega) (by omega)
      split at hnear
      · have hnear := htrivia hbehind hnear
        exact iff_of_false (by omega) (by omega)
      · rw [show first + index = first + (before.length + 1 + behind.length) +
          (index - (before.length + 1 + behind.length)) by omega, hother _ _ hnear]
        omega

/-- What a piece of trivia names as its owner is a token. -/
theorem Groups.exists_owner {first : Nat} {cells : List Cell} (h : Groups first cells) {cell : Cell}
    (hcell : cell ∈ cells) : ∃ index other, cell.owner = first + index ∧
      cells[index]? = some other ∧ other.kind.isTrivia = false := by
  induction h with
  | nil => exact absurd hcell List.not_mem_nil
  | @group first before behind more main hbefore hmain howner _ _ hbehind _ ih =>
    have hfound : (before ++ main :: (behind ++ more))[before.length]? = some main := by
      rw [List.getElem?_append_right (Nat.le_refl _), Nat.sub_self, List.getElem?_cons_zero]
    -- A cell of the first group has its token there; any other one has it further on.
    rcases List.mem_append.mp hcell with hcell | hcell
    · exact ⟨before.length, main, (hbefore _ hcell).2, hfound, hmain⟩
    rcases List.mem_cons.mp hcell with rfl | hcell
    · exact ⟨before.length, cell, howner, hfound, hmain⟩
    rcases List.mem_append.mp hcell with hcell | hcell
    · exact ⟨before.length, main, (hbehind _ hcell).2, hfound, hmain⟩
    · rcases ih hcell with ⟨index, other, howner, hother, hkind⟩
      refine ⟨before.length + 1 + behind.length + index, other, by omega, ?_, hkind⟩
      rw [getElem?_group, if_neg (by omega), if_neg (by omega), if_neg (by omega),
        Nat.add_sub_cancel_left]
      exact hother

/-! ## Positions -/

theorem tile_triviaCells (parent owner offset : Nat) (pieces : List Builder.TriviaSize) :
    Span.Tile offset (offset + triviaSize pieces)
      ((triviaCells parent owner offset pieces).map Cell.span) := by
  induction pieces generalizing offset with
  | nil => exact .nil offset
  | cons piece pieces ih =>
    have hmore := ih (offset + piece.2)
    rw [Nat.add_assoc] at hmore
    exact @Span.Tile.cons ⟨offset, piece.2⟩ _ _ hmore

theorem tile_tokenCells (parent first offset : Nat) (leading : List Builder.TriviaSize)
    (kind : Kind) (size : Nat) (trailing : List Builder.TriviaSize) :
    Span.Tile offset (offset + (triviaSize leading + size + triviaSize trailing))
      ((tokenCells parent first offset leading kind size trailing).map Cell.span) := by
  have htrailing := tile_triviaCells parent (first + leading.length)
    (offset + triviaSize leading + size) trailing
  rw [tokenCells, List.map_append, List.map_cons, ← Nat.add_assoc, ← Nat.add_assoc]
  exact (tile_triviaCells _ _ _ _).append
    (@Span.Tile.cons ⟨offset + triviaSize leading, size⟩ _ _ htrailing)

/-- Where the cell with a number begins, when the row begins at the front of a text. -/
def position (cells : List Cell) (index : Nat) : Nat :=
  ((cells.take index).map fun cell => cell.span.length).sum

theorem position_cons (cell : Cell) (cells : List Cell) (index : Nat) :
    position (cell :: cells) (index + 1) = cell.span.length + position cells index := by
  rw [position, List.take_succ_cons, List.map_cons, List.sum_cons, position]

theorem position_append {cells : List Cell} {index : Nat} (more : List Cell)
    (h : index ≤ cells.length) : position (cells ++ more) index = position cells index := by
  rw [position, List.take_append_of_le_length h, position]

theorem position_succ {cells : List Cell} {index : Nat} {cell : Cell}
    (h : cells[index]? = some cell) :
    position cells (index + 1) = position cells index + cell.span.length := by
  rw [position, List.take_add_one, h, List.map_append, List.sum_append, position]
  simp

theorem position_mono (cells : List Cell) {index later : Nat} (h : index ≤ later) :
    position cells index ≤ position cells later := by
  induction h with
  | refl => exact Nat.le_refl _
  | @step later _ ih =>
    refine Nat.le_trans ih ?_
    rcases hcell : cells[later]? with _ | cell
    · rw [position, position, List.take_add_one, hcell]
      simp
    · rw [position_succ hcell]
      exact Nat.le_add_right _ _

theorem start_eq_position {first last : Nat} {cells : List Cell}
    (h : Span.Tile first last (cells.map Cell.span)) {index : Nat} {cell : Cell}
    (hcell : cells[index]? = some cell) : cell.span.start = first + position cells index := by
  induction cells generalizing first index with
  | nil => simp at hcell
  | cons head cells ih =>
    rw [List.map_cons] at h
    cases h with
    | cons hmore =>
      rcases index with _ | index
      · cases hcell
        rfl
      · rw [ih hmore hcell, Span.stop, position_cons, Nat.add_assoc]

theorem size_eq_position {first last : Nat} {cells : List Cell}
    (h : Span.Tile first last (cells.map Cell.span)) :
    last = first + position cells cells.length := by
  induction cells generalizing first with
  | nil =>
    cases h
    rfl
  | cons head cells ih =>
    rw [List.map_cons] at h
    cases h with
    | cons hmore =>
      rw [ih hmore, Span.stop, List.length_cons, position_cons, Nat.add_assoc]

/-- From where one cell begins to where a later one ends. -/
theorem cover_cells {table : Table} {stop first last : Nat}
    (h : Span.Tile 0 stop (table.tokens.map Cell.span)) (hle : first ≤ last)
    (hlt : last < table.tokens.length) :
    Span.cover (table.cellSpan first) (table.cellSpan last) =
      ⟨position table.tokens first,
        position table.tokens (last + 1) - position table.tokens first⟩ := by
  have hfirst := List.getElem?_eq_getElem (Nat.lt_of_le_of_lt hle hlt)
  have hlast := List.getElem?_eq_getElem hlt
  have hstart := start_eq_position h hfirst
  have hend := start_eq_position h hlast
  rw [Nat.zero_add] at hstart hend
  rw [Span.cover, cellSpan, cellSpan, hfirst, hlast, Option.map_some, Option.map_some,
    Option.getD_some, Option.getD_some, Span.stop, hstart, hend, position_succ hlast]

end Table

end PhpAssist

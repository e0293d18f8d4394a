import Mathlib.Data.List.Destutter
import PhpAssist.Proofs.Places
import PhpAssist.Proofs.Tiling
import PhpAssist.Tree.AtOffset

/-!
# The tokens at an offset

The tokens at an offset are looked up by halves in a row that mixes tokens with their trivia. What
they should be is told by a plain look at every stretch of the row: those that the offset touches,
each standing for the token that owns it, where a token and its own trivia count once.

The two agree because the stretches follow each other without a gap and only the last of them, the
end of the text, may be empty. So the stretches that end before an offset are in front of the
others, the first that does not touches it, the next one touches it just if it begins there, and
none behind that does. All of this is about one row; that the rows of the nodes of a parse are of
this sort comes from the tokens of the text.

## Main definitions

* `Stretch.Row`: Stretches that follow each other, of which only the last may be empty.
* `Node.ownersAt`: The tokens at an offset by a plain look.
* `Node.Tiled`: A node whose stretches follow each other.

## Theorems

* `Stretch.Row.exists_cut`: A row at the first stretch that does not end before an offset.
* `Node.leavesAt_of_tiled`: The two ways to look agree where stretches follow each other.
* `Node.spans_stretches`, `Node.tiled_of_texts`: The stretches of a node are the pieces of its
  tokens.
* `Lexing.texts_ne_nil`: Which pieces of a text are empty.
* `Parse.leavesAt_eq_ownersAt`: The tokens at an offset in the tree of a text.
-/

namespace PhpAssist

/-- What stands in a row lies between its ends. -/
theorem Span.Tile.bounds {first last : Nat} {spans : List Span} (h : Tile first last spans)
    {span : Span} (hmem : span ∈ spans) : first ≤ span.start ∧ span.stop ≤ last := by
  induction h with
  | nil => exact absurd hmem List.not_mem_nil
  | @cons next stop more behind ih =>
    have hnext : next.start ≤ next.stop := Nat.le_add_right _ _
    rcases List.mem_cons.mp hmem with rfl | hmem
    · exact ⟨Nat.le_refl _, behind.le⟩
    · have hbounds := ih hmem
      omega

namespace Stretch

/-- Stretches that follow each other from one offset to another, and none but the last of which is
    empty. -/
structure Row (first last : Nat) (row : List Stretch) : Prop where
  tile : Span.Tile first last (row.map Stretch.span)
  solid : ∀ stretch ∈ row.dropLast, 0 < stretch.span.length

namespace Row

variable {first last offset : Nat} {stretch : Stretch} {row more : List Stretch}

theorem start_eq (h : Row first last (stretch :: more)) : stretch.span.start = first := by
  have htile := h.tile
  rw [List.map_cons] at htile
  cases htile
  rfl

theorem tail (h : Row first last (stretch :: more)) : Row stretch.span.stop last more where
  tile := by
    have htile := h.tile
    rw [List.map_cons] at htile
    cases htile with
    | cons behind => exact behind
  solid := by
    intro it hit
    refine h.solid it ?_
    rcases more with _ | ⟨next, more⟩
    · exact absurd hit List.not_mem_nil
    · exact List.mem_cons_of_mem _ hit

theorem bounds (h : Row first last row) (hmem : stretch ∈ row) :
    first ≤ stretch.span.start ∧ stretch.span.stop ≤ last :=
  h.tile.bounds (List.mem_map_of_mem hmem)

theorem last_eq (h : Row first last []) : first = last := by
  have htile := h.tile
  cases htile
  rfl

theorem touches_iff : stretch.span.touches offset = true ↔
    stretch.span.start ≤ offset ∧ offset ≤ stretch.span.stop := by
  simp [Span.touches]

/-- Of the stretches behind an offset only the first can touch it, since the next one begins where
    that one ends, and that one is not empty. -/
theorem filter_behind (h : Row first last row) (hoffset : offset ≤ first) :
    row.filter (·.span.touches offset) =
      row.head?.toList.filter fun next => next.span.start = offset := by
  rcases row with _ | ⟨next, more⟩
  · rfl
  have hstart := h.start_eq
  have hstop : next.span.stop = next.span.start + next.span.length := rfl
  have hmore : more.filter (·.span.touches offset) = [] := by
    rw [List.filter_eq_nil_iff]
    intro later hlater htouches
    -- Only the last stretch of a row may be empty, and one is behind this one.
    rcases more with _ | ⟨after, more⟩
    · exact absurd hlater List.not_mem_nil
    · have hsolid : 0 < next.span.length := h.solid next List.mem_cons_self
      have hbounds := h.tail.bounds hlater
      rw [touches_iff] at htouches
      omega
  rw [List.filter_cons, hmore, List.head?_cons, Option.toList_some, List.filter_cons,
    List.filter_nil]
  by_cases heq : next.span.start = offset
  · rw [if_pos (touches_iff.mpr ⟨by omega, by omega⟩), if_pos (decide_eq_true heq)]
  · have hnot : ¬ next.span.touches offset = true := by
      rw [touches_iff]
      omega
    rw [if_neg hnot, if_neg (by rw [decide_eq_true_eq]; exact heq)]

/-- A row that an offset lies in, at the first stretch that does not end before the offset. -/
theorem exists_cut (h : Row first last row) (hne : row ≠ []) (hfirst : first ≤ offset)
    (hlast : offset ≤ last) : ∃ front stretch more, row = front ++ stretch :: more ∧
      (∀ it ∈ front, it.span.stop < offset) ∧ stretch.span.touches offset = true ∧
      Row stretch.span.stop last more := by
  induction row generalizing first with
  | nil => exact absurd rfl hne
  | cons stretch more ih =>
    have hstart := h.start_eq
    by_cases hstop : stretch.span.stop < offset
    · -- Something is behind it, since the row reaches as far as the offset.
      have hmore : more ≠ [] := by
        rintro rfl
        have hlast := h.tail.last_eq
        omega
      rcases ih h.tail hmore (by omega) with ⟨front, found, behind, rfl, hfront, hfound, hbehind⟩
      refine ⟨stretch :: front, found, behind, rfl, fun it hit => ?_, hfound, hbehind⟩
      rcases List.mem_cons.mp hit with rfl | hit
      · exact hstop
      · exact hfront it hit
    -- The first stretch that does not end ahead of the offset touches it.
    · refine ⟨[], stretch, more, rfl, fun it hit => absurd hit List.not_mem_nil, ?_, h.tail⟩
      rw [touches_iff]
      omega

end Row

end Stretch

/-- The tokens that own the stretches of a node that touch an offset, from left to right, where
    neighbours count once that are the same token. -/
def Node.ownersAt (node : Node) (offset : Nat) : List Leaf :=
  ((node.stretches.filter (·.span.touches offset)).map Stretch.owner).destutter
    fun a b => a.number ≠ b.number

namespace Node

variable {node : Node} {offset : Nat}

/-- Whether the stretches of a node follow each other from where it begins to where it ends. -/
def Tiled (node : Node) : Prop :=
  Stretch.Row node.fullSpan.start node.fullSpan.stop node.stretches

theorem leavesAt_of_not_touches (h : ¬ node.fullSpan.touches offset = true) :
    node.leavesAt offset = .none := by
  unfold leavesAt
  rw [if_neg h]

theorem leavesAt_of_nil (h : node.stretches = []) : node.leavesAt offset = .none := by
  unfold leavesAt
  rw [h]
  simp only [List.getElem?_nil, ite_self]

/-- The search by halves finds the first stretch that does not end before the offset. -/
theorem leavesAt_of_cut {front more : List Stretch} {stretch : Stretch} {last : Nat}
    (hrow : node.stretches = front ++ stretch :: more)
    (htouches : node.fullSpan.touches offset = true)
    (hfront : ∀ it ∈ front, it.span.stop < offset) (hstretch : stretch.span.touches offset = true)
    (hmore : Stretch.Row stretch.span.stop last more) :
    (node.leavesAt offset).toList = (stretch.owner ::
      (more.head?.toList.filter fun next => next.span.start = offset).map Stretch.owner).destutter
        fun a b => a.number ≠ b.number := by
  have hbounds := Stretch.Row.touches_iff.mp hstretch
  -- The search ends in front of the stretch: what is behind it ends no earlier.
  have hpoint : Bisect.point (fun stretch => stretch.span.stop < offset) node.stretches =
      front.length := by
    rw [hrow]
    refine Bisect.point_append (fun it hit => decide_eq_true (hfront it hit)) fun it hit => ?_
    rw [decide_eq_false_iff_not]
    rcases List.mem_cons.mp hit with rfl | hit
    · omega
    · have hit := hmore.bounds hit
      have hle : it.span.start ≤ it.span.stop := Nat.le_add_right _ _
      omega
  have hfirst : node.stretches[front.length]? = some stretch := by
    rw [hrow, List.getElem?_append_right (Nat.le_refl _), Nat.sub_self, List.getElem?_cons_zero]
  have hnext : node.stretches[front.length + 1]? = more.head? := by
    rw [hrow, List.getElem?_append_right (Nat.le_add_right _ 1), Nat.add_sub_cancel_left,
      List.getElem?_cons_succ, List.head?_eq_getElem?]
  unfold leavesAt
  rw [if_pos htouches]
  simp only [hpoint, hfirst, hnext]
  rw [if_neg (by omega)]
  rcases more with _ | ⟨next, more⟩
  · rfl
  · -- The next one begins where this one ends, so one comparison with the offset would do.
    have hstart := hmore.start_eq
    simp only [List.head?_cons, Option.toList_some, List.filter_cons, List.filter_nil]
    by_cases heq : next.span.start = offset
    · rw [if_pos (decide_eq_true heq), List.map_cons, List.map_nil, List.destutter_pair]
      by_cases howner : stretch.owner.number ≠ next.owner.number
      · rw [if_pos ⟨by omega, heq, howner⟩, if_pos howner]
        rfl
      · rw [if_neg fun h => howner h.2.2, if_neg howner]
        rfl
    · rw [if_neg fun h => heq h.2.1, if_neg (by rw [decide_eq_true_eq]; exact heq)]
      rfl

/-- Where the stretches of a node follow each other, the tokens at an offset are those that the
    plain look at every stretch gives. There are tokens if the node has any and the offset lies in
    it. -/
theorem leavesAt_of_tiled (h : node.Tiled) (offset : Nat) :
    (node.leavesAt offset).toList = node.ownersAt offset ∧
      ((node.leavesAt offset).toList = [] ↔
        node.stretches = [] ∨ ¬ node.fullSpan.touches offset = true) := by
  by_cases htouches : node.fullSpan.touches offset = true
  -- A node without stretches has no token at all.
  · by_cases hne : node.stretches = []
    · rw [leavesAt_of_nil hne, ownersAt, hne]
      exact ⟨rfl, fun _ => .inl rfl, fun _ => rfl⟩
    · have hfull : node.fullSpan.start ≤ offset ∧ offset ≤ node.fullSpan.stop := by
        simpa [Span.touches] using htouches
      rcases h.exists_cut hne hfull.1 hfull.2 with
        ⟨front, stretch, more, hrow, hfront, hstretch, hmore⟩
      have hleaves := leavesAt_of_cut hrow htouches hfront hstretch hmore
      -- What is in front of the first one touched is not touched.
      have hfilter : front.filter (·.span.touches offset) = [] := by
        rw [List.filter_eq_nil_iff]
        intro it hit hit'
        rw [Stretch.Row.touches_iff] at hit'
        have hstop := hfront it hit
        omega
      refine ⟨?_, ?_⟩
      · have hbehind := hmore.filter_behind (Stretch.Row.touches_iff.mp hstretch).2
        rw [hleaves, ownersAt, hrow, List.filter_append, hfilter, List.nil_append,
          List.filter_cons, if_pos hstretch, hbehind, List.map_cons]
      · rw [hleaves]
        constructor
        · intro hnil
          exact absurd hnil (by simp [List.destutter_eq_nil])
        · rintro (hnil | hnot)
          · exact absurd hnil hne
          · exact absurd htouches hnot
  · -- A stretch that touches the offset would lie in the node.
    have howners : node.stretches.filter (·.span.touches offset) = [] := by
      rw [List.filter_eq_nil_iff]
      intro it hit hit'
      have hbounds := h.bounds hit
      rw [Stretch.Row.touches_iff] at hit'
      refine htouches ?_
      simp only [Span.touches, Bool.and_eq_true, decide_eq_true_eq]
      omega
    rw [leavesAt_of_not_touches htouches, ownersAt, howners]
    exact ⟨rfl, fun _ => .inr htouches, fun _ => rfl⟩

/-! ## The stretches of a node -/

theorem spans_leaf (leaf : Leaf) : leaf.stretches.map Stretch.span =
    Span.row leaf.place.bytes leaf.token.texts := by
  have hmap (spans : List Span) :
      (spans.map fun span => (⟨span, leaf⟩ : Stretch)).map Stretch.span = spans := by
    rw [List.map_map]
    exact List.map_id spans
  have hspan : leaf.span = ⟨leaf.place.bytes + Text.size leaf.token.leadingText,
      Text.size leaf.token.text⟩ := rfl
  rw [Leaf.stretches, hmap, Leaf.leading, Leaf.trailing, Leaf.placeTrivia_row, Leaf.placeTrivia_row,
    Token.texts, Span.row_append, Span.row, ← List.flatMap_def, hspan]
  rfl

/-- The stretches of a node are the pieces of its tokens, one behind the other. -/
theorem spans_stretches (node : Node) : node.stretches.map Stretch.span =
    Span.row node.place.bytes (node.tree.tokens.flatMap Token.texts) := by
  have hlexemes : node.leaves.map Leaf.lexeme = Token.lexemes node.place.bytes node.tree.tokens :=
    lexemes_locateAll node.ancestors node.place.inside node.children
  have hleaf (leaf : Leaf) : leaf.stretches.map Stretch.span = leaf.lexeme.spans :=
    (spans_leaf leaf).trans (leaf.token.spans_lexeme leaf.place.bytes).symm
  rw [← Token.flatMap_spans_lexemes, ← hlexemes, List.flatMap_map, stretches, List.map_flatMap]
  simp only [hleaf]

theorem stretches_eq_nil_iff (node : Node) : node.stretches = [] ↔ node.leaves = [] := by
  rw [stretches, List.flatMap_eq_nil_iff]
  constructor
  · intro h
    refine List.eq_nil_iff_forall_not_mem.mpr fun leaf hleaf => ?_
    have hnil := congrArg (List.map Stretch.span) (h leaf hleaf)
    rw [spans_leaf, Token.texts, Span.row_append, Span.row] at hnil
    exact absurd hnil (List.append_ne_nil_of_right_ne_nil _ (List.cons_ne_nil _ _))
  · intro h leaf hleaf
    rw [h] at hleaf
    exact absurd hleaf List.not_mem_nil

end Node

/-! ## The tokens of a text -/

theorem Span.dropLast_row (offset : Nat) (texts : List Text) :
    (row offset texts).dropLast = row offset texts.dropLast := by
  induction texts generalizing offset with
  | nil => rfl
  | cons text texts ih =>
    rcases texts with _ | ⟨next, texts⟩
    · rfl
    · have hmore := ih (offset + Text.size text)
      rw [row] at hmore ⊢
      rw [row, List.dropLast_cons_cons, List.dropLast_cons_cons, row, hmore]

theorem Span.length_of_mem_row {offset : Nat} {texts : List Text} {span : Span}
    (h : span ∈ row offset texts) : ∃ text ∈ texts, span.length = Text.size text := by
  induction texts generalizing offset with
  | nil => exact absurd h List.not_mem_nil
  | cons text texts ih =>
    rw [row] at h
    rcases List.mem_cons.mp h with rfl | h
    · exact ⟨text, List.mem_cons_self, rfl⟩
    · rcases ih h with ⟨found, hfound, hlength⟩
      exact ⟨found, List.mem_cons_of_mem _ hfound, hlength⟩

/-- Part of a row, without its last item, is part of the row without its last item. -/
theorem mem_dropLast_of_part {α : Type} {before part after : List α} {item : α}
    (h : item ∈ part.dropLast) : item ∈ (before ++ (part ++ after)).dropLast := by
  have hne : part ≠ [] := by
    rintro rfl
    exact absurd h List.not_mem_nil
  rw [List.dropLast_append_of_ne_nil (List.append_ne_nil_of_left_ne_nil hne _)]
  refine List.mem_append_right _ ?_
  by_cases hafter : after = []
  · rw [hafter, List.append_nil]
    exact h
  · rw [List.dropLast_append_of_ne_nil hafter]
    exact List.mem_append_left _ ((List.dropLast_sublist part).subset h)

namespace Node

variable {root node : Node}

/-- If no piece of the tokens of a tree but the last is empty, the stretches of every node of the
    tree follow each other. -/
theorem tiled_of_texts (hnode : node ∈ root.descendants)
    (h : ∀ text ∈ (root.tree.tokens.flatMap Token.texts).dropLast, text ≠ []) : node.Tiled where
  tile := by
    have htile := Span.tile_row node.place.bytes (node.tree.tokens.flatMap Token.texts)
    rwa [Token.flatten_flatMap_texts, ← spans_stretches] at htile
  solid := by
    intro stretch hstretch
    have hspan : stretch.span ∈ (node.stretches.map Stretch.span).dropLast := by
      rw [← List.map_dropLast]
      exact List.mem_map_of_mem hstretch
    rw [spans_stretches, Span.dropLast_row] at hspan
    -- The tokens of the node are part of those of the tree, so its pieces are too.
    rcases Span.length_of_mem_row hspan with ⟨text, htext, hlength⟩
    rcases Tree.tokens_of_subtree root.tree (mem_subtrees hnode) with ⟨before, after, htokens⟩
    rw [hlength]
    refine Text.size_pos (h text ?_)
    rw [htokens, List.flatMap_append, List.flatMap_append]
    exact mem_dropLast_of_part htext

end Node

namespace Lexing

/-- Nothing stands behind the end of a text. -/
theorem trailing_last (text : Text) : (Lexing.of text).last.trailing = [] := by
  have hread (offset : Nat) (text : Text) : (readFrom offset text).last.trailing = [] := by
    fun_induction readFrom offset text with
    | case1 => rfl
    | case2 offset text leading start _ hrest lexeme size trailing stop errors more ih => exact ih
  exact hread 0 text

/-- No piece of the tokens of a text is empty but the last one, which is the end of the text. -/
theorem texts_ne_nil {text piece : Text}
    (h : piece ∈ ((Lexing.of text).all.flatMap Token.texts).dropLast) : piece ≠ [] := by
  have htrivia {tok : Token} (htok : tok ∈ (Lexing.of text).all) {it : Trivia}
      (hit : it ∈ tok.leading ++ tok.trailing) : it.text ≠ [] :=
    (isRead_readFrom htok).trivia it hit
  -- The end of the text is the last piece, and it alone is empty.
  have hlast : (Lexing.of text).last.texts.dropLast =
      (Lexing.of text).last.leading.map Trivia.text := by
    rw [Token.texts, trailing_last, List.map_nil, List.dropLast_concat]
  rw [all, List.flatMap_append, List.flatMap_singleton,
    List.dropLast_append_of_ne_nil (by rw [Token.texts]; exact
      List.append_ne_nil_of_right_ne_nil _ (List.cons_ne_nil _ _)), hlast] at h
  rcases List.mem_append.mp h with h | h
  · -- A piece of a token in front of the end of the text, which is a lexeme.
    rcases List.mem_flatMap.mp h with ⟨tok, htok, hpiece⟩
    have hall : tok ∈ (Lexing.of text).all := List.mem_append_left _ htok
    rw [Token.texts, List.mem_append, List.mem_cons] at hpiece
    rcases hpiece with hpiece | rfl | hpiece
    · rcases List.mem_map.mp hpiece with ⟨it, hit, rfl⟩
      exact htrivia hall (List.mem_append_left _ hit)
    · exact (isRead_readFrom hall).text (Kind.ne_endOfFile_of_isLexeme (isLexeme_of_mem htok))
    · rcases List.mem_map.mp hpiece with ⟨it, hit, rfl⟩
      exact htrivia hall (List.mem_append_right _ hit)
  · -- Trivia in front of the end of the text.
    rcases List.mem_map.mp h with ⟨it, hit, rfl⟩
    exact htrivia (List.mem_append_right _ (List.mem_singleton_self _)) (List.mem_append_left _ hit)

end Lexing

namespace Parse

/-- The root of a parse that ends holds the tokens of its text. -/
theorem exists_root {rule : Nat → Grammar.State → Grammar.State} (hrule : IsEntry rule)
    {text : Text} (hends : (withRule rule text).finished = true) :
    ∃ row, (withRule rule text).root = .root .sourceFile row ∧
      Tree.tokensOf row = (Lexing.of text).all := by
  have hstalled : (run rule text).stalled = false := by
    simpa [withRule] using hends
  -- All tokens are read, and what was read is put into the tree.
  rcases reads_entry hrule hstalled with ⟨after, row, hrun, hrow, hahead⟩
  rcases build_of_reads hrow hahead with ⟨_, _, _, hbuild⟩
  refine ⟨row ++ [Tree.token (Lexing.of text).last], ?_, ?_⟩
  · have hbuilt : build rule text =
        .ok ⟨text, .root .sourceFile (row ++ [Tree.token (Lexing.of text).last])⟩ := by
      rw [← hbuild]
      exact congrArg (fun state => state.log.build text) hrun
    rw [root, withRule, hbuilt]
    rfl
  · have hall : (Lexing.of text).tokens = Tree.tokensOf row ++ after.ahead := hrow.ahead
    rw [Tree.tokensOf_append, Tree.tokensOf_singleton, Tree.tokens, Lexing.all, hall, hahead,
      List.append_nil]

/-- Nothing is around the root of a parse that ends. -/
theorem parents_root_of_finished {rule : Nat → Grammar.State → Grammar.State} (hrule : IsEntry rule)
    {text : Text} (hends : (withRule rule text).finished = true) :
    (withRule rule text).root.parents = [] := by
  rcases exists_root hrule hends with ⟨row, hroot, _⟩
  rw [hroot]
  rfl

/-- The leaves of a parse that ends are the tokens of its text. -/
theorem tokens_root {rule : Nat → Grammar.State → Grammar.State} (hrule : IsEntry rule)
    {text : Text} (hends : (withRule rule text).finished = true) :
    (withRule rule text).root.tree.tokens = (Lexing.of text).all ∧
      (withRule rule text).root.fullSpan = ⟨0, Text.size text⟩ := by
  rcases exists_root hrule hends with ⟨row, hroot, htokens⟩
  have hsize : (Tree.tokensOf row).flatMap Token.fullText = text := by
    rw [htokens]
    exact Lexing.fullText_all text
  rw [hroot]
  exact ⟨htokens, congrArg (fun text => (⟨0, Text.size text⟩ : Span)) hsize⟩

/-- The stretches of every node of a parse that ends follow each other. -/
theorem tiled_of_finished {rule : Nat → Grammar.State → Grammar.State} (hrule : IsEntry rule)
    {text : Text} (hends : (withRule rule text).finished = true) {node : Node}
    (hnode : node ∈ (withRule rule text).root.descendants) : node.Tiled := by
  refine Node.tiled_of_texts hnode ?_
  rw [(tokens_root hrule hends).1]
  exact fun piece hpiece => Lexing.texts_ne_nil hpiece

end Parse

namespace Node

mutual

/-- Leaves are numbered in the order in which they are located. -/
theorem numbers_locate (parents : List Node) (place : Place) (tree : Tree) :
    ((locate parents place tree).filterMap Element.leaf?).map Leaf.number =
      List.range' place.tokens tree.tokens.length :=
  match tree with
  | .token _ => rfl
  | .node kind children =>
    numbers_locateAll (⟨kind, children, place, parents⟩ :: parents) place.inside children

theorem numbers_locateAll (parents : List Node) (place : Place) (row : List Tree) :
    ((locateAll parents place row).filterMap Element.leaf?).map Leaf.number =
      List.range' place.tokens (Tree.tokensOf row).length :=
  match row with
  | [] => rfl
  | tree :: more => by
    rw [locateAll, List.filterMap_append, List.map_append, numbers_locate parents place tree,
      numbers_locateAll parents (place.after tree) more, Tree.tokensOf, List.length_append,
      Place.after, List.range'_append_1]

end

/-- Two leaves of one node with one number are the same leaf. -/
theorem leaf_eq_of_number {node : Node} {a b : Leaf} (ha : a ∈ node.leaves) (hb : b ∈ node.leaves)
    (h : a.number = b.number) : a = b := by
  have hnumbers : node.leaves.map Leaf.number = List.range' node.place.tokens
      (Tree.tokensOf node.children).length :=
    numbers_locateAll node.ancestors node.place.inside node.children
  have hnodup : (node.leaves.map Leaf.number).Nodup := by
    rw [hnumbers]
    exact List.nodup_range'
  exact List.inj_on_of_nodup_map hnodup ha hb h

end Node

namespace Parse

/-- The tokens at an offset of any node of a parse that ends are those that the plain look at every
    stretch gives, and there are never more than two. There are some if the node has a token and the
    offset lies in the node; so in the root, up to the size of the text. Numbers tell the tokens
    apart. -/
theorem leavesAt_eq_ownersAt {rule : Nat → Grammar.State → Grammar.State} (hrule : IsEntry rule)
    {text : Text} (hends : (withRule rule text).finished = true) {node : Node}
    (hnode : node ∈ (withRule rule text).root.descendants) (offset : Nat) :
    (node.leavesAt offset).toList = node.ownersAt offset ∧
      (∀ a ∈ node.leaves, ∀ b ∈ node.leaves, a.number = b.number → a = b) ∧
      (node.ownersAt offset).length ≤ 2 ∧
      ((node.leavesAt offset).toList = [] ↔
        node.leaves = [] ∨ ¬ node.fullSpan.touches offset = true) ∧
      (((withRule rule text).root.leavesAt offset).toList ≠ [] ↔ offset ≤ Text.size text) := by
  rcases tokens_root hrule hends with ⟨htokens, hspan⟩
  have hroot : (withRule rule text).root ∈ (withRule rule text).root.descendants :=
    Node.mem_descendants.mpr List.mem_cons_self
  rcases Node.leavesAt_of_tiled (tiled_of_finished hrule hends hnode) offset with ⟨heq, hnil⟩
  rcases Node.leavesAt_of_tiled (tiled_of_finished hrule hends hroot) offset with ⟨_, hnil'⟩
  rw [Node.stretches_eq_nil_iff] at hnil hnil'
  refine ⟨heq, fun a ha b hb h => Node.leaf_eq_of_number ha hb h, ?_, hnil, ?_⟩
  · rw [← heq]
    cases node.leavesAt offset with
    | none => exact Nat.zero_le _
    | single leaf => exact Nat.le_succ _
    | between left right => exact Nat.le_refl _
  -- The root has at least the end of the text as a leaf.
  · have hleaves : (withRule rule text).root.leaves ≠ [] := by
      intro h
      have hnone := Node.token_leaves (withRule rule text).root
      rw [h] at hnone
      have hall : (withRule rule text).root.tree.tokens = [] := hnone.symm
      rw [htokens, Lexing.all] at hall
      exact absurd hall (List.append_ne_nil_of_right_ne_nil _ (List.cons_ne_nil _ _))
    rw [ne_eq, hnil', hspan]
    simp only [Span.touches, Span.stop, Nat.zero_add, Nat.zero_le, decide_true, Bool.true_and,
      decide_eq_true_eq, hleaves, false_or, not_not]

/-- A comment behind a semicolon belongs to it, up to where the end of the text meets it. -/
theorem leavesAt_eq_ownersAt_comment :
    IsEntry Grammar.sourceFile ∧ (withRule Grammar.sourceFile "<?php f(); #".toList).finished = true ∧
      ∃ node ∈ (withRule Grammar.sourceFile "<?php f(); #".toList).root.descendants,
        (node.leavesAt 12).toList.map Leaf.kind = [.semicolon, .endOfFile] ∧
        (node.leavesAt 12).toList = node.ownersAt 12 := by
  generalize htext : "<?php f(); #".toList = text
  obtain ⟨hends, hkinds⟩ :
      (withRule Grammar.sourceFile text).finished = true ∧
      (((withRule Grammar.sourceFile text).root.leavesAt 12).toList.map Leaf.kind) =
        [.semicolon, .endOfFile] := by
    rw [← htext]
    decide +kernel
  have hroot : (withRule Grammar.sourceFile text).root ∈
      (withRule Grammar.sourceFile text).root.descendants :=
    Node.mem_descendants.mpr List.mem_cons_self
  exact ⟨.file, hends, _, hroot, hkinds, (leavesAt_eq_ownersAt .file hends hroot 12).1⟩

end Parse

end PhpAssist

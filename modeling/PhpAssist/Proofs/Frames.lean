import PhpAssist.Proofs.Bytes
import PhpAssist.Proofs.Places
import PhpAssist.Proofs.Shape

/-!
# What is around a node

A node of a tree leaves a gap when it is taken out, and what is around the gap is still a row of
trees with the rest of the text in its leaves. The place of a node says how much of the text stands
in front of the gap. Where other trees are put into the gap, everything around it stays, so two rows
that agree on what is around a gap differ in nothing but what fills it.

## Main definitions

* `Tree.Frame`: A row of trees with a gap.
* `Tree.Frame.fill`, `Tree.Frame.fillShape`: The gap filled with trees, or with shapes.
* `Tree.Frame.front`, `Tree.Frame.back`: The tokens around the gap.
* `Tree.Frame.holder?`: The node around the gap.

## Theorems

* `Node.frame_of_locateAll`: A node of a row fills a gap, at its place.
* `Tree.exists_of_words`: Tokens can be put together to every shape that has their words.
-/

namespace PhpAssist

namespace Tree

/-- A row of trees with a gap between two of them, or below one of them. -/
inductive Frame where
  | here (before after : List Tree)
  | inside (before : List Tree) (kind : Kind) (frame : Frame) (after : List Tree)

namespace Frame

/-- The row with trees in the gap. -/
def fill (row : List Tree) : Frame → List Tree
  | .here before after => before ++ (row ++ after)
  | .inside before kind frame after => before ++ .node kind (frame.fill row) :: after

/-- The shapes of the row with shapes in the gap. -/
def fillShape (row : List Shape) : Frame → List Shape
  | .here before after => shapesOf before ++ (row ++ shapesOf after)
  | .inside before kind frame after =>
    shapesOf before ++ .node kind (frame.fillShape row) :: shapesOf after

/-- The tokens in front of the gap. -/
def front : Frame → List Token
  | .here before _ => tokensOf before
  | .inside before _ frame _ => tokensOf before ++ frame.front

/-- The tokens behind the gap. -/
def back : Frame → List Token
  | .here _ after => tokensOf after
  | .inside _ _ frame after => frame.back ++ tokensOf after

/-- The kind of the node that the gap is a child of, unless it is in the row itself. -/
def holder? : Frame → Option Kind
  | .here _ _ => none
  | .inside _ kind frame _ => some (frame.holder?.getD kind)

/-- The same gap with more trees in front of the row. -/
def prepend (more : List Tree) : Frame → Frame
  | .here before after => .here (more ++ before) after
  | .inside before kind frame after => .inside (more ++ before) kind frame after

variable {row : List Tree}

theorem tokensOf_append (row more : List Tree) :
    tokensOf (row ++ more) = tokensOf row ++ tokensOf more := by
  simp only [tokensOf_eq_flatMap, List.flatMap_append]

theorem tokens_fill (frame : Frame) :
    tokensOf (frame.fill row) = frame.front ++ (tokensOf row ++ frame.back) := by
  induction frame with
  | here before after => rw [fill, tokensOf_append, tokensOf_append]; rfl
  | inside before kind frame after ih =>
    rw [fill, tokensOf_append, tokensOf, tokens, ih, front, back]
    simp only [List.append_assoc]

theorem shapes_fill (frame : Frame) :
    shapesOf (frame.fill row) = frame.fillShape (shapesOf row) := by
  induction frame with
  | here before after => rw [fill, shapesOf_append, shapesOf_append]; rfl
  | inside before kind frame after ih =>
    rw [fill, shapesOf_append, shapesOf, shape, ih]
    rfl

theorem words_fillShape (row : List Shape) (frame : Frame) : Shape.wordsOf (frame.fillShape row) =
    frame.front.map Token.word ++ (Shape.wordsOf row ++ frame.back.map Token.word) := by
  induction frame with
  | here before after =>
    rw [fillShape, Shape.wordsOf_append, Shape.wordsOf_append, wordsOf_shapesOf, wordsOf_shapesOf]
    rfl
  | inside before kind frame after ih =>
    rw [fillShape, Shape.wordsOf_append, Shape.wordsOf_cons, Shape.words_node, ih, wordsOf_shapesOf,
      wordsOf_shapesOf, front, back, List.map_append, List.map_append]
    simp only [List.append_assoc]

theorem front_prepend (more : List Tree) (frame : Frame) :
    (frame.prepend more).front = tokensOf more ++ frame.front := by
  cases frame with
  | here => exact tokensOf_append _ _
  | inside => simp only [prepend, front, tokensOf_append, List.append_assoc]

end Frame

/-! ## Trees with given tokens -/

mutual

/-- A tree is its shape with its tokens as leaves. -/
theorem eq_of_shape_of_tokens (tree other : Tree) (hshape : tree.shape = other.shape)
    (htokens : tree.tokens = other.tokens) : tree = other :=
  match tree, other with
  | .token tok, .token tok' => by
    rw [tokens, tokens, List.cons.injEq] at htokens
    rw [htokens.1]
  | .token tok, .node kind row => absurd hshape nofun
  | .node kind row, .token tok => absurd hshape nofun
  | .node kind row, .node kind' row' => by
    rw [shape, shape, Shape.node.injEq] at hshape
    rw [hshape.1, eq_of_shapes_of_tokens row row' hshape.2 htokens]

theorem eq_of_shapes_of_tokens (row other : List Tree) (hshapes : shapesOf row = shapesOf other)
    (htokens : tokensOf row = tokensOf other) : row = other :=
  match row, other with
  | [], [] => rfl
  | [], tree :: more => absurd hshapes nofun
  | tree :: more, [] => absurd hshapes nofun
  | tree :: more, tree' :: more' => by
    rw [shapesOf, shapesOf, List.cons.injEq] at hshapes
    rw [tokensOf, tokensOf] at htokens
    -- Equal shapes have equally many words, so the tokens are cut at the same place.
    have hlength : tree.tokens.length = tree'.tokens.length := by
      have hwords := congrArg (fun shape => shape.words.length) hshapes.1
      simpa only [words_shape, List.length_map] using hwords
    rcases List.append_inj htokens hlength with ⟨hfirst, hrest⟩
    rw [eq_of_shape_of_tokens tree tree' hshapes.1 hfirst,
      eq_of_shapes_of_tokens more more' hshapes.2 hrest]

end

mutual

/-- A shape with the words of some tokens is that of a tree of these tokens. -/
theorem exists_of_words (shape : Shape) (tokens : List Token)
    (h : shape.words = tokens.map Token.word) :
    ∃ tree : Tree, tree.shape = shape ∧ tree.tokens = tokens :=
  match shape with
  | .word word => by
    rcases tokens with _ | ⟨tok, _ | ⟨next, more⟩⟩
    · exact absurd h nofun
    · rw [Shape.words_word, List.map_singleton, List.cons.injEq] at h
      exact ⟨.token tok, by rw [Tree.shape, h.1], rfl⟩
    · exact absurd (List.cons.inj h).2 nofun
  | .node kind row => by
    rw [Shape.words_node] at h
    rcases exists_of_wordsOf row tokens h with ⟨trees, hshapes, htokens⟩
    exact ⟨.node kind trees, by rw [Tree.shape, hshapes], htokens⟩

theorem exists_of_wordsOf (row : List Shape) (tokens : List Token)
    (h : Shape.wordsOf row = tokens.map Token.word) :
    ∃ trees, shapesOf trees = row ∧ tokensOf trees = tokens :=
  match row with
  | [] => ⟨[], rfl, (List.map_eq_nil_iff.mp h.symm).symm⟩
  | shape :: more => by
    rw [Shape.wordsOf_cons] at h
    rcases List.map_eq_append_iff.mp h.symm with ⟨front, back, rfl, hfront, hback⟩
    rcases exists_of_words shape front hfront.symm with ⟨tree, hshape, htokens⟩
    rcases exists_of_wordsOf more back hback.symm with ⟨trees, hshapes, htrees⟩
    exact ⟨tree :: trees, by rw [shapesOf, hshape, hshapes], by rw [tokensOf, htokens, htrees]⟩

end

end Tree

/-! ## Nodes in place -/

namespace Node

open PhpAssist.Tree (Frame)

/-- A node fills a gap in a row that begins at a place: what stands in front of the gap tells its
    place, and what is around the gap tells its parent. -/
structure Fills (node : Node) (parents : List Node) (place : Place) (row : List Tree)
    (frame : Frame) : Prop where
  row : row = frame.fill [node.tree]
  bytes : node.place.bytes = place.bytes + Text.size (frame.front.flatMap Token.fullText)
  tokens : node.place.tokens = place.tokens + frame.front.length
  parent : node.parent?.map Node.kind = frame.holder?.or (parents.head?.map Node.kind)

variable {node : Node}

mutual

/-- A tree in place is the node itself, or the node is below it. -/
theorem frame_of_locate {parents : List Node} {place : Place} (tree : Tree)
    (h : .node node ∈ locate parents place tree) :
    (node = ⟨tree.kind, tree.children, place, parents⟩ ∧ tree = node.tree) ∨
    ∃ kind children frame, tree = .node kind children ∧
      node.Fills (⟨kind, children, place, parents⟩ :: parents) place.inside children frame :=
  match tree with
  | .token _ => absurd h (by simp only [locate, List.mem_singleton, reduceCtorEq,
      not_false_eq_true])
  | .node kind children => by
    rw [locate, List.mem_cons] at h
    rcases h with heq | h
    · injection heq with heq
      exact .inl ⟨heq, by rw [heq]; rfl⟩
    · rcases frame_of_locateAll children h with ⟨frame, hframe⟩
      exact .inr ⟨kind, children, frame, rfl, hframe⟩

/-- A node below a row fills a gap of it. -/
theorem frame_of_locateAll {parents : List Node} {place : Place} (row : List Tree)
    (h : .node node ∈ locateAll parents place row) :
    ∃ frame, node.Fills parents place row frame :=
  match row with
  | [] => absurd h List.not_mem_nil
  | tree :: more => by
    rw [locateAll, List.mem_append] at h
    rcases h with h | h
    -- The first tree is the node itself, or holds it further down.
    · rcases frame_of_locate tree h with ⟨hnode, htree⟩ | ⟨kind, children, frame, rfl, hframe⟩
      · refine ⟨.here [] more, ?_, ?_, ?_, ?_⟩
        · rw [htree]
          rfl
        · rw [hnode]
          rfl
        · rw [hnode]
          rfl
        · rw [hnode]
          rfl
      · refine ⟨.inside [] kind frame more, ?_, hframe.bytes, hframe.tokens, ?_⟩
        · rw [hframe.row]
          rfl
        · rw [hframe.parent, Frame.holder?]
          rcases frame.holder? with _ | kind' <;> rfl
    -- In a later tree the first one stands in front of the frame.
    · rcases frame_of_locateAll more h with ⟨frame, hframe⟩
      refine ⟨frame.prepend [tree], ?_, ?_, ?_, ?_⟩
      · rw [hframe.row]
        cases frame <;> rfl
      · rw [hframe.bytes, Frame.front_prepend]
        simp only [Place.after, Tree.tokensOf, List.append_nil, List.flatMap_append,
          Text.size_append, Tree.size, Tree.fullText]
        omega
      · rw [hframe.tokens, Frame.front_prepend]
        simp only [Place.after, Tree.tokensOf, List.append_nil, List.length_append]
        omega
      · rw [hframe.parent]
        cases frame <;> rfl

end

/-- A node below another one fills a gap among its children. -/
theorem frame_of_descendants {outer : Node} (h : node ∈ outer.descendants)
    (hne : node.kind ≠ outer.kind) :
    ∃ frame, node.Fills outer.ancestors outer.place.inside outer.children frame := by
  rw [mem_descendants, subtree] at h
  rcases List.mem_cons.mp h with heq | h
  · injection heq with heq
    exact absurd (congrArg Node.kind heq) hne
  · exact frame_of_locateAll outer.children h

end Node

end PhpAssist

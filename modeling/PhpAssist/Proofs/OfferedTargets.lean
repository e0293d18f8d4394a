import PhpAssist.Proofs.Edits
import PhpAssist.Proofs.TernaryRewrite
import PhpAssist.Proofs.TokensAt

/-!
# Where assists are offered

What is offered at a cursor is about a conditional, a concatenation or an `echo` around the token at
the cursor. Trivia belongs to a token, and so a cursor in a comment asks about the code of the token
that the comment is attached to; no offset is compared with the place of that code.

Most of the time this makes no difference, since the trivia between two tokens of a node lies in the
node. What matters are the ends: the text of a node leaves out the trivia in front of its first
token and behind its last one. A cursor there is outside, and everything is offered to it that is
offered to a cursor in the token itself.

## Theorems

* `Node.span_around_leaf`: A node encloses its tokens, with their trivia except at its ends.
* `Node.leavesAt_inside`: Strictly inside a token and its trivia there is only this token.
* `AssistContext.exists_of_mem_assists`: What is offered is about a node around the cursor.
* `AssistContext.target_around_token`: What is offered, and where the cursor is outside of it.
* `AssistContext.target_beside_cursor`: Something is offered to a cursor outside of it.
-/

namespace PhpAssist

open Text

/-! ## Tokens in the nodes around them -/

/-- Behind the text of a token is its trailing trivia. -/
theorem Leaf.stop_eq (leaf : Leaf) :
    leaf.span.stop + size leaf.token.trailingText = leaf.fullSpan.stop := by
  rw [span, fullSpan, Token.spanAt, Token.fullSpanAt, Span.stop, Span.stop, Token.size,
    Token.fullText, size_append, size_append, Nat.add_assoc, Nat.add_assoc, Nat.add_assoc]

namespace Node

variable {node root : Node} {leaf : Leaf}

mutual

/-- A token stands behind the tokens in front of it. -/
theorem leaf_locate {parents : List Node} {place : Place} {leaf : Leaf} (tree : Tree)
    (h : .leaf leaf ∈ locate parents place tree) :
    ∃ front back, tree.tokens = front ++ leaf.token :: back ∧
      leaf.place.bytes = place.bytes + size (front.flatMap Token.fullText) :=
  match tree with
  | .token tok => by
    rw [locate, List.mem_singleton, Element.leaf.injEq] at h
    subst h
    exact ⟨[], [], rfl, rfl⟩
  | .node kind children => by
    rw [locate] at h
    rcases List.mem_cons.mp h with h | h
    · exact absurd h (by simp only [reduceCtorEq, not_false_eq_true])
    -- A node adds nothing to the texts of its children.
    · rcases leaf_locateAll children h with ⟨front, back, htokens, hplace⟩
      exact ⟨front, back, htokens, hplace⟩

theorem leaf_locateAll {parents : List Node} {place : Place} {leaf : Leaf} (row : List Tree)
    (h : .leaf leaf ∈ locateAll parents place row) :
    ∃ front back, Tree.tokensOf row = front ++ leaf.token :: back ∧
      leaf.place.bytes = place.bytes + size (front.flatMap Token.fullText) :=
  match row with
  | [] => absurd h List.not_mem_nil
  | tree :: more => by
    rw [locateAll] at h
    rcases List.mem_append.mp h with h | h
    -- The leaf is in the first tree, and the others come behind it;
    · rcases leaf_locate tree h with ⟨front, back, htokens, hplace⟩
      refine ⟨front, back ++ Tree.tokensOf more, ?_, hplace⟩
      rw [Tree.tokensOf, htokens, List.append_assoc, List.cons_append]
    -- or it is in a later one, and the first tree comes in front.
    · rcases leaf_locateAll more h with ⟨front, back, htokens, hplace⟩
      refine ⟨tree.tokens ++ front, back, ?_, ?_⟩
      · rw [Tree.tokensOf, htokens, List.append_assoc]
      · rw [hplace, Place.after, Tree.size, Tree.fullText, List.flatMap_append, size_append,
          Nat.add_assoc]

end

/-- A token of a node stands between the tokens of the node in front of it and those behind it. -/
theorem leaf_of_mem_leaves (h : leaf ∈ node.leaves) :
    ∃ front back, node.tree.tokens = front ++ leaf.token :: back ∧
      leaf.fullSpan.start = node.fullSpan.start + size (front.flatMap Token.fullText) ∧
      node.fullSpan.stop = leaf.fullSpan.stop + size (back.flatMap Token.fullText) := by
  rw [mem_leaves, ← locate_tree] at h
  rcases leaf_locate node.tree h with ⟨front, back, htokens, hplace⟩
  refine ⟨front, back, htokens, hplace, ?_⟩
  rw [fullSpan, Leaf.fullSpan, Token.fullSpanAt, Span.stop, Span.stop, Tree.size, Tree.fullText,
    htokens, List.flatMap_append, List.flatMap_cons, size_append, size_append, hplace, Token.size]
  simp only [Nat.add_assoc]

/-- A node begins behind the trivia in front of its first token and ends in front of the trivia
    behind its last one. -/
theorem span_ends {first final : Token}
    (hkinds : ∀ tok ∈ node.tree.tokens, tok.kind.isTrivia = false)
    (hfirst : node.tree.tokens.head? = some first)
    (hfinal : node.tree.tokens.getLast? = some final) :
    node.span.start = node.fullSpan.start + size first.leadingText ∧
      node.span.stop + size final.trailingText = node.fullSpan.stop := by
  have htext := congrArg size (Token.fullText_eq_trimmed hfirst hfinal)
  rw [← Tree.trimmed_eq hkinds, size_append, size_append] at htext
  rw [span_eq hfirst (hkinds first (List.mem_of_head? hfirst)), Span.stop, Span.stop, fullSpan,
    Tree.size, Tree.fullText, htext, trimmed]
  exact ⟨rfl, by simp only [Nat.add_assoc]⟩

/-- A node encloses its tokens, and their trivia too except for what is in front of the first of
    them and behind the last. -/
theorem span_around_leaf (hkinds : ∀ tok ∈ node.tree.tokens, tok.kind.isTrivia = false)
    (h : leaf ∈ node.leaves) :
    (node.span.start = leaf.span.start ∨ node.span.start ≤ leaf.fullSpan.start) ∧
      (node.span.stop = leaf.span.stop ∨ leaf.fullSpan.stop ≤ node.span.stop) := by
  rcases leaf_of_mem_leaves h with ⟨front, back, htokens, hbegin, hnode⟩
  have hstart : leaf.span.start = leaf.fullSpan.start + size leaf.token.leadingText := rfl
  have hstop := leaf.stop_eq
  have hne : node.tree.tokens ≠ [] := by
    rw [htokens]
    exact List.append_ne_nil_of_right_ne_nil _ (List.cons_ne_nil _ _)
  rcases Option.isSome_iff_exists.mp (List.isSome_head?.mpr hne) with ⟨first, hfirst⟩
  rcases Option.isSome_iff_exists.mp (List.getLast?_isSome.mpr hne) with ⟨final, hfinal⟩
  have hends := span_ends hkinds hfirst hfinal
  rw [htokens] at hfirst hfinal
  refine ⟨?_, ?_⟩
  -- Either the leaf is the first token and shares the start, or a whole token stands in front of
  -- it.
  · rcases front with _ | ⟨before, front⟩
    · rw [List.nil_append, List.head?_cons, Option.some.injEq] at hfirst
      subst hfirst
      rw [List.flatMap_nil, size_nil] at hbegin
      exact .inl (by omega)
    · rw [List.cons_append, List.head?_cons, Option.some.injEq] at hfirst
      subst hfirst
      rw [List.flatMap_cons, Token.fullText, size_append, size_append, size_append] at hbegin
      exact .inr (by omega)
  -- The same at the end.
  · rcases List.eq_nil_or_concat back with rfl | ⟨back, after, rfl⟩
    · rw [List.getLast?_append_cons, List.getLast?_singleton, Option.some.injEq] at hfinal
      subst hfinal
      rw [List.flatMap_nil, size_nil] at hnode
      exact .inl (by omega)
    · rw [List.concat_eq_append, ← List.cons_append, ← List.append_assoc,
        List.getLast?_append_cons, List.getLast?_singleton, Option.some.injEq] at hfinal
      subst hfinal
      rw [List.concat_eq_append, List.flatMap_append, List.flatMap_singleton, Token.fullText,
        size_append, size_append, size_append] at hnode
      exact .inr (by omega)

/-- A token of a tree is below the nodes around it. -/
theorem leaf_mem_leaves_of_parents (hroot : root.parents = []) (hleaf : leaf ∈ root.leaves)
    (h : node ∈ leaf.parents) : leaf ∈ node.leaves := by
  rw [mem_leaves, ← locate_tree] at hleaf
  rw [mem_leaves]
  refine (mem_subtree_locate root.tree hleaf h).resolve_left fun hmem => ?_
  rw [hroot] at hmem
  exact absurd hmem List.not_mem_nil

end Node

/-! ## The token at an offset -/

theorem Span.Tile.of_append {first last : Nat} {spans more : List Span}
    (h : Tile first last (spans ++ more)) :
    ∃ between, Tile first between spans ∧ Tile between last more := by
  induction spans generalizing first with
  | nil => exact ⟨first, .nil first, h⟩
  | cons span spans ih =>
    cases h with
    | cons behind =>
      rcases ih behind with ⟨between, hspans, hmore⟩
      exact ⟨between, .cons hspans, hmore⟩

theorem Span.Tile.start_eq {first last : Nat} {span : Span} {more : List Span}
    (h : Tile first last (span :: more)) : first = span.start := by
  cases h
  rfl

theorem Span.Tile.eq_of_nil {first last : Nat} (h : Tile first last []) : first = last := by
  cases h
  rfl

theorem Span.Tile.stop_eq {first last : Nat} {spans : List Span} {span : Span}
    (h : Tile first last (spans ++ [span])) : last = span.stop := by
  rcases h.of_append with ⟨between, _, hlast⟩
  cases hlast with
  | cons behind => exact behind.eq_of_nil.symm

/-- A row that is not empty tells where it begins and ends. -/
theorem Span.Tile.ends_unique {first last first' last' : Nat} {spans : List Span}
    (hne : spans ≠ []) (h : Tile first last spans) (h' : Tile first' last' spans) :
    first = first' ∧ last = last' := by
  refine ⟨?_, ?_⟩
  · rcases List.exists_cons_of_ne_nil hne with ⟨span, more, rfl⟩
    rw [h.start_eq, h'.start_eq]
  · rcases List.eq_nil_or_concat spans with rfl | ⟨more, span, rfl⟩
    · exact absurd rfl hne
    · rw [List.concat_eq_append] at h h'
      rw [h.stop_eq, h'.stop_eq]

namespace Leaf

variable {leaf : Leaf}

theorem stretches_ne_nil (leaf : Leaf) : leaf.stretches ≠ [] := by
  intro h
  rw [stretches, List.map_eq_nil_iff] at h
  exact absurd h (List.append_ne_nil_of_right_ne_nil _ (List.cons_ne_nil _ _))

theorem owner_of_mem_stretches {stretch : Stretch} (h : stretch ∈ leaf.stretches) :
    stretch.owner = leaf := by
  rcases List.mem_map.mp h with ⟨span, _, rfl⟩
  rfl

/-- The stretches of a token reach over the token and its trivia. -/
theorem tile_stretches (leaf : Leaf) :
    Span.Tile leaf.fullSpan.start leaf.fullSpan.stop (leaf.stretches.map Stretch.span) := by
  have htile := Span.tile_row leaf.place.bytes leaf.token.texts
  rwa [Token.flatten_texts, ← Node.spans_leaf] at htile

theorem bounds_of_mem_stretches {stretch : Stretch} (h : stretch ∈ leaf.stretches) :
    leaf.fullSpan.start ≤ stretch.span.start ∧ stretch.span.stop ≤ leaf.fullSpan.stop :=
  leaf.tile_stretches.bounds (List.mem_map_of_mem h)

end Leaf

namespace Node

variable {node : Node} {leaf : Leaf} {offset : Nat}

/-- A token at an offset has the offset in it or in its trivia. -/
theorem touches_of_mem_leavesAt (htiled : node.Tiled) (h : leaf ∈ (node.leavesAt offset).toList) :
    leaf.fullSpan.touches offset = true := by
  rw [(leavesAt_of_tiled htiled offset).1] at h
  rcases List.mem_map.mp ((List.destutter_sublist _ _).subset h) with ⟨stretch, hstretch, rfl⟩
  rw [List.mem_filter, Stretch.Row.touches_iff] at hstretch
  rcases List.mem_flatMap.mp hstretch.1 with ⟨leaf, _, hleaf⟩
  have hbounds := Leaf.bounds_of_mem_stretches hleaf
  rw [Leaf.owner_of_mem_stretches hleaf, Span.touches, Bool.and_eq_true, decide_eq_true_eq,
    decide_eq_true_eq]
  omega

/-- What is in front of a token ends before an offset strictly inside the token and its trivia, and
    what is behind it begins after such an offset. -/
theorem owner_of_touches_inside (htiled : node.Tiled) (h : leaf ∈ node.leaves)
    (hstart : leaf.fullSpan.start < offset) (hstop : offset < leaf.fullSpan.stop)
    {stretch : Stretch} (hmem : stretch ∈ node.stretches)
    (htouches : stretch.span.touches offset = true) : stretch.owner = leaf := by
  rcases List.append_of_mem h with ⟨front, back, hleaves⟩
  have hstretches : node.stretches = front.flatMap Leaf.stretches ++
      (leaf.stretches ++ back.flatMap Leaf.stretches) := by
    rw [stretches, hleaves, List.flatMap_append, List.flatMap_cons]
  have htile := htiled.tile
  rw [hstretches, List.map_append, List.map_append] at htile
  rcases htile.of_append with ⟨first, hfront, htile⟩
  rcases htile.of_append with ⟨last, hleaf, hback⟩
  -- The stretches tile the text, and those of the leaf tile exactly its own part.
  rcases leaf.tile_stretches.ends_unique
    (fun hmap => leaf.stretches_ne_nil (List.map_eq_nil_iff.mp hmap)) hleaf with ⟨rfl, rfl⟩
  rw [hstretches, List.mem_append, List.mem_append] at hmem
  rw [Stretch.Row.touches_iff] at htouches
  -- A stretch of another leaf ends before the offset or begins behind it.
  rcases hmem with hmem | hmem | hmem
  · have hbounds := hfront.bounds (List.mem_map_of_mem hmem)
    omega
  · exact Leaf.owner_of_mem_stretches hmem
  · have hbounds := hback.bounds (List.mem_map_of_mem hmem)
    omega

/-- Strictly inside a token and its trivia there is only this token. -/
theorem leavesAt_inside (htiled : node.Tiled) (h : leaf ∈ node.leaves)
    (hstart : leaf.fullSpan.start < offset) (hstop : offset < leaf.fullSpan.stop) :
    node.leavesAt offset = .single leaf := by
  rcases leavesAt_of_tiled htiled offset with ⟨heq, hnil⟩
  have hall : ∀ other ∈ (node.leavesAt offset).toList, other = leaf := by
    intro other hother
    rw [heq] at hother
    rcases List.mem_map.mp ((List.destutter_sublist _ _).subset hother) with
      ⟨stretch, hstretch, rfl⟩
    rw [List.mem_filter] at hstretch
    exact owner_of_touches_inside htiled h hstart hstop hstretch.1 hstretch.2
  -- Some leaf is there at all: the offset is inside the node.
  have hne : (node.leavesAt offset).toList ≠ [] := by
    rcases leaf_of_mem_leaves h with ⟨_, _, _, hbegin, hend⟩
    rw [ne_eq, hnil, stretches_eq_nil_iff, Span.touches, Bool.and_eq_true, decide_eq_true_eq,
      decide_eq_true_eq]
    rintro (hnone | hnot)
    · rw [hnone] at h
      exact absurd h List.not_mem_nil
    · omega
  have hchain : (node.leavesAt offset).toList.IsChain fun a b => a.number ≠ b.number := by
    rw [heq]
    exact List.isChain_destutter _ _
  rcases hat : node.leavesAt offset with _ | single | ⟨left, right⟩
  · rw [hat] at hne
    exact absurd rfl hne
  · rw [hat] at hall
    rw [hall single List.mem_cons_self]
  · -- Two tokens that meet have different numbers.
    rw [hat] at hall hchain
    rw [AtOffset.toList, hall left List.mem_cons_self,
      hall right (List.mem_cons_of_mem _ List.mem_cons_self)] at hchain
    exact absurd rfl (List.isChain_pair.mp hchain)

end Node

/-! ## The offers -/

/-- The tokens of a text are not trivia. -/
theorem Lexing.isTrivia_of_mem {text : Text} {tok : Token} (h : tok ∈ (Lexing.of text).all) :
    tok.kind.isTrivia = false := by
  rcases List.mem_append.mp h with h | h
  · exact Kind.isTrivia_of_isLexeme (isLexeme_of_mem h)
  · rw [List.mem_singleton.mp h, kind_last]
    rfl

/-- The tokens of the nodes of a parse that ends are tokens of its text. -/
theorem Parse.isTrivia_of_finished {rule : Nat → Grammar.State → Grammar.State}
    (hrule : IsEntry rule) {text : Text} (hends : (withRule rule text).finished = true)
    {node : Node} (hnode : node ∈ (withRule rule text).root.descendants) {tok : Token}
    (h : tok ∈ node.tree.tokens) : tok.kind.isTrivia = false := by
  rcases Tree.tokens_of_subtree _ (Node.mem_subtrees hnode) with ⟨before, after, htokens⟩
  have hmem : tok ∈ (Lexing.of text).all := by
    rw [← (tokens_root hrule hends).1, htokens]
    exact List.mem_append_right _ (List.mem_append_left _ h)
  exact Lexing.isTrivia_of_mem hmem

namespace AssistContext

variable {context : AssistContext} {assist : Assist}

/-- What is offered is about a node around the cursor. -/
theorem exists_of_mem_assists (h : assist ∈ context.assists) :
    ∃ node ∈ context.ancestors, assist.target = node.span ∧
      (assist.id = .ternaryToIfElse ∧ node.kind = .ternaryExpr ∨
        assist.id = .concatToHeredoc ∧ (node.kind = .concatExpr ∨ node.kind = .echoStmt)) := by
  rcases List.mem_filterMap.mp h with ⟨id, _, hid⟩
  rcases Option.map_eq_some_iff.mp hid with ⟨target, htarget, rfl⟩
  -- Both assists take their target from among the ancestors of the cursor's token.
  cases id with
  | ternaryToIfElse =>
    rw [target?, TernaryAssignment.target?] at htarget
    split at htarget
    · rename_i found hfound
      rcases TernaryAssignment.ternary_of_locate hfound with ⟨hmem, hkind, _⟩
      exact ⟨found.ternary, hmem, (Option.some.inj htarget).symm, .inl ⟨rfl, hkind⟩⟩
    · exact absurd htarget (by simp only [reduceCtorEq, not_false_eq_true])
  | concatToHeredoc =>
    rw [target?, ConcatChain.target?] at htarget
    split at htarget
    · rename_i concat hconcat
      have htopmost := (Option.filter_eq_some_iff.mp hconcat).1
      have hmem := List.mem_filter.mp (List.mem_of_getLast? htopmost)
      exact ⟨concat, hmem.1, (Option.some.inj htarget).symm,
        .inr ⟨rfl, .inl (beq_iff_eq.mp hmem.2)⟩⟩
    · split at htarget
      · rename_i echo hecho
        have hkind := List.find?_some hecho
        rw [beq_iff_eq] at hkind
        split at htarget
        · exact ⟨echo, List.mem_of_find?_eq_some hecho, (Option.some.inj htarget).symm,
            .inr ⟨rfl, .inr hkind⟩⟩
        · exact absurd htarget (by simp only [reduceCtorEq, not_false_eq_true])
      · exact absurd htarget (by simp only [reduceCtorEq, not_false_eq_true])

/-- What is offered is told by the nodes around the cursor, not by the cursor itself. -/
theorem assists_congr {other : AssistContext} (hconfig : other.config = context.config)
    (hancestors : other.ancestors = context.ancestors) : other.assists = context.assists := by
  have htarget (id : AssistId) : other.target? id = context.target? id := by
    cases id <;> simp only [target?, TernaryAssignment.target?, TernaryAssignment.locate,
      ConcatChain.target?, ConcatChain.topmost?, hconfig, hancestors]
  simp only [assists, htarget]

/-- What is offered at a cursor is about a conditional, a concatenation or an `echo` around the
    token at the cursor, and encloses this token. The cursor is in the token or in its trivia. It is
    outside of what is offered just if it is in trivia in front of the first token of it, or behind
    the last one; and the same is offered everywhere strictly inside the token and its trivia. -/
theorem target_around_token {text : Text} (hends : (Parse.file text).finished = true)
    (hparse : context.parse = Parse.file text) (h : assist ∈ context.assists) :
    ∃ leaf node, context.leaf? = some leaf ∧ leaf.fullSpan.touches context.offset = true ∧
      node ∈ leaf.parents ∧ assist.target = node.span ∧
      (assist.id = .ternaryToIfElse ∧ node.kind = .ternaryExpr ∨
        assist.id = .concatToHeredoc ∧ (node.kind = .concatExpr ∨ node.kind = .echoStmt)) ∧
      assist.target.start ≤ leaf.span.start ∧ leaf.span.stop ≤ assist.target.stop ∧
      (assist.target.touches context.offset = false ↔
        context.offset < leaf.span.start ∧ leaf.span.start = assist.target.start ∨
          leaf.span.stop < context.offset ∧ leaf.span.stop = assist.target.stop) ∧
      ∀ offset, leaf.fullSpan.start < offset → offset < leaf.fullSpan.stop →
        (⟨context.parse, offset, context.config⟩ : AssistContext).assists = context.assists := by
  rcases exists_of_mem_assists h with ⟨node, hnode, htarget, hkind⟩
  rcases hleaf : context.leaf? with _ | leaf
  · rw [ancestors, hleaf] at hnode
    exact absurd hnode List.not_mem_nil
  have hparents : node ∈ leaf.parents := by
    rw [ancestors, hleaf] at hnode
    exact hnode
  have hroot : context.parse.root.parents = [] := by
    rw [hparse]
    exact Parse.parents_root_of_finished .file hends
  have htiled : context.parse.root.Tiled := by
    rw [hparse]
    exact Parse.tiled_of_finished .file hends (Node.mem_descendants.mpr List.mem_cons_self)
  have hmember : leaf ∈ context.parse.root.leaves := leaf?_mem hleaf
  have htouches := Node.touches_of_mem_leavesAt htiled (AtOffset.best?_mem hleaf)
  -- The node is in the tree, and the token at the cursor is one of its tokens.
  have hdescendant := Node.parents_mem hroot (Node.mem_leaves.mp hmember) hparents
  rw [hparse] at hdescendant
  have hkinds : ∀ tok ∈ node.tree.tokens, tok.kind.isTrivia = false := fun tok htok =>
    Parse.isTrivia_of_finished .file hends hdescendant htok
  have haround := Node.span_around_leaf hkinds
    (Node.leaf_mem_leaves_of_parents hroot hmember hparents)
  have hfirst : leaf.fullSpan.start ≤ leaf.span.start := Nat.le_add_right _ _
  have hlength : leaf.span.start ≤ leaf.span.stop := Nat.le_add_right _ _
  have hlast := leaf.stop_eq
  refine ⟨leaf, node, rfl, htouches, hparents, htarget, hkind, ?_, ?_, ?_, ?_⟩
  · rw [htarget]
    omega
  · rw [htarget]
    omega
  -- The offset touches the token with its trivia, so it can miss the target only in the trivia at
  -- its ends.
  · rw [Span.touches, Bool.and_eq_true, decide_eq_true_eq, decide_eq_true_eq] at htouches
    rw [htarget, Span.touches, Bool.and_eq_false_iff, decide_eq_false_iff_not,
      decide_eq_false_iff_not]
    omega
  -- Inside the same token the cursor has the same leaf, and the assists depend on nothing else.
  · intro offset hstart hstop
    have hsame : (⟨context.parse, offset, context.config⟩ : AssistContext).leaf? =
        context.leaf? := by
      rw [leaf?, Node.leavesAt_inside htiled hmember hstart hstop, hleaf]
      rfl
    exact assists_congr rfl (by rw [ancestors, ancestors, hsame])

/-- The blanks behind a conditional are attached to its last token, so the conditional is offered
    at its end and at any of them. -/
theorem target_around_token_blanks :
    (Parse.file "<?php $x = $c ? 1 : 2   ;".toList).finished = true ∧
      (⟨.ternaryToIfElse, ⟨11, 10⟩⟩ : Assist) ∈
        (⟨Parse.file "<?php $x = $c ? 1 : 2   ;".toList, 23, .default⟩ : AssistContext).assists ∧
      ∀ offset, 20 < offset → offset < 24 →
        (⟨Parse.file "<?php $x = $c ? 1 : 2   ;".toList, offset, .default⟩ :
          AssistContext).assists = [⟨.ternaryToIfElse, ⟨11, 10⟩⟩] := by
  generalize htext : "<?php $x = $c ? 1 : 2   ;".toList = text
  obtain ⟨hends, hassists, hspan⟩ :
      (Parse.file text).finished = true ∧
      (⟨Parse.file text, 23, .default⟩ : AssistContext).assists =
        [⟨.ternaryToIfElse, ⟨11, 10⟩⟩] ∧
      ((⟨Parse.file text, 23, .default⟩ : AssistContext).leaf?.map Leaf.fullSpan) =
        some ⟨20, 4⟩ := by
    rw [← htext]
    decide +kernel
  have hmem : (⟨.ternaryToIfElse, ⟨11, 10⟩⟩ : Assist) ∈
      (⟨Parse.file text, 23, .default⟩ : AssistContext).assists := by
    rw [hassists]
    exact List.mem_singleton_self _
  rcases target_around_token hends rfl hmem with ⟨leaf, _, hleaf, _, _, _, _, _, _, _, hsame⟩
  rw [hleaf, Option.map_some, Option.some.injEq] at hspan
  rw [hspan] at hsame
  refine ⟨hends, hmem, fun offset hstart hstop => ?_⟩
  rw [hsame offset hstart hstop, hassists]

/-- Something is offered to a cursor outside of it: a conditional to a cursor in the blanks behind
    it, and an `echo` to one in the comment on the line in front of it. -/
theorem target_beside_cursor :
    (Parse.file "<?php $x = $c ? 1 : 2   ;".toList).finished = true ∧
      (⟨Parse.file "<?php $x = $c ? 1 : 2   ;".toList, 23, .default⟩ : AssistContext).assists =
        [⟨.ternaryToIfElse, ⟨11, 10⟩⟩] ∧
      (⟨11, 10⟩ : Span).touches 23 = false ∧
      (Parse.file "<?php\n// note\necho $a, $b;".toList).finished = true ∧
      (⟨Parse.file "<?php\n// note\necho $a, $b;".toList, 10, .default⟩ :
        AssistContext).assists = [⟨.concatToHeredoc, ⟨14, 12⟩⟩] ∧
      (⟨14, 12⟩ : Span).touches 10 = false := by
  refine ⟨?_, ?_, rfl, ?_, ?_, rfl⟩ <;> decide +kernel

end AssistContext

end PhpAssist

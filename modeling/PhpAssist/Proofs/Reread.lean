import Mathlib.Data.List.Forall2
import PhpAssist.Proofs.Resolutions
import PhpAssist.Proofs.TernaryParts

/-!
# Operands read again

A format call is a text of its own, so its operands are read again from there. What an operand
becomes in a heredoc does not change by that: its class is a matter of its shape, and its text is a
matter of its tokens without the trivia at its ends, and both are the same in both places.

## Main definitions

* `Tree.Reread`: A tree that was read again from its text.

## Theorems

* `Tree.exprClass_of_shape`: Trees of one shape have one class.
* `Resolution.operand_reread`: An operand that is read again is resolved as before.
* `Resolution.ofFrom_reread`: So are operands in a row.
-/

namespace PhpAssist

namespace Token

/-- Tokens without the trivia at both ends of the row. -/
def bare (tokens : List Token) : List Token := startWith [] (endWith [] tokens)

theorem trimmed_eq_bare (tokens : List Token) :
    trimmed tokens = (bare tokens).flatMap fullText := rfl

theorem length_bare (tokens : List Token) : (bare tokens).length = tokens.length := by
  have hwords := congrArg List.length (word_startWith [] (endWith [] tokens))
  rw [word_endWith, List.length_map, List.length_map] at hwords
  exact hwords

theorem startWith_startWith (leading other : List Trivia) (tokens : List Token) :
    startWith leading (startWith other tokens) = startWith leading tokens := by
  cases tokens <;> rfl

theorem endWith_endWith (trailing other : List Trivia) (tokens : List Token) :
    endWith trailing (endWith other tokens) = endWith trailing tokens := by
  rcases List.eq_nil_or_concat tokens with rfl | ⟨front, tok, rfl⟩
  · rfl
  · rw [List.concat_eq_append, endWith_append_singleton, endWith_append_singleton,
      endWith_append_singleton]

theorem bare_startWith (leading : List Trivia) (tokens : List Token) :
    bare (startWith leading tokens) = bare tokens := by
  rw [bare, endWith_startWith, startWith_startWith, bare]

theorem bare_bare (tokens : List Token) : bare (bare tokens) = bare tokens := by
  rw [show bare tokens = startWith [] (endWith [] tokens) from rfl, bare_startWith, bare,
    endWith_endWith]

/-- The trivia behind a row is behind its last part. -/
theorem endWith_append (trailing : List Trivia) {tokens more : List Token} (h : more ≠ []) :
    endWith trailing (tokens ++ more) = tokens ++ endWith trailing more := by
  rcases List.eq_nil_or_concat more with rfl | ⟨front, tok, rfl⟩
  · exact absurd rfl h
  · rw [List.concat_eq_append, ← List.append_assoc, endWith_append_singleton,
      endWith_append_singleton, List.append_assoc]

theorem startWith_append (leading : List Trivia) {tokens : List Token} (h : tokens ≠ [])
    (more : List Token) :
    startWith leading (tokens ++ more) = startWith leading tokens ++ more := by
  rcases tokens with _ | ⟨tok, tokens⟩
  · exact absurd rfl h
  · rfl

/-- The front of a row without the trivia at its ends. -/
theorem front_of_bare {front back front' back' : List Token} (hfront : front ≠ [])
    (hback : back ≠ []) (h : front' ++ back' = bare (front ++ back))
    (hlength : front'.length = front.length) : front' = startWith [] front := by
  -- The trivia behind the row is behind its back, so the front only loses what is in front of it.
  have hsplit : bare (front ++ back) = startWith [] front ++ endWith [] back := by
    rw [bare, endWith_append [] hback, startWith_append [] hfront]
  have hlength' : front'.length = (startWith [] front).length := by
    rw [hlength]
    cases front <;> rfl
  exact (List.append_inj (h.trans hsplit) hlength').1

end Token

namespace Tree

/-! ## Trees of one shape -/

theorem kind_of_shape {a b : Tree} (h : a.shape = b.shape) : a.kind = b.kind := by
  rw [← kind_shape, ← kind_shape, h]

theorem length_tokens_of_shape {a b : Tree} (h : a.shape = b.shape) :
    a.tokens.length = b.tokens.length := by
  have hwords := congrArg (fun shape => shape.words.length) h
  rw [words_shape, words_shape, List.length_map, List.length_map] at hwords
  exact hwords

/-- Whether a test tells trees of one shape from one another. -/
def Respects (p : Tree → Bool) : Prop := ∀ a b : Tree, a.shape = b.shape → p a = p b

theorem any_of_shapes {p : Tree → Bool} (hp : Respects p) {row other : List Tree}
    (h : row.map shape = other.map shape) : row.any p = other.any p := by
  induction row generalizing other with
  | nil =>
    rw [List.map_nil, eq_comm, List.map_eq_nil_iff] at h
    rw [h]
  | cons tree row ih =>
    rcases other with _ | ⟨tree', other⟩
    · exact absurd h (List.cons_ne_nil _ _)
    · rw [List.map_cons, List.map_cons, List.cons.injEq] at h
      rw [List.any_cons, List.any_cons, hp tree tree' h.1, ih h.2]

theorem filter_of_shapes {p : Tree → Bool} (hp : Respects p) {row other : List Tree}
    (h : row.map shape = other.map shape) :
    (row.filter p).map shape = (other.filter p).map shape := by
  induction row generalizing other with
  | nil =>
    rw [List.map_nil, eq_comm, List.map_eq_nil_iff] at h
    rw [h]
  | cons tree row ih =>
    rcases other with _ | ⟨tree', other⟩
    · exact absurd h (List.cons_ne_nil _ _)
    · rw [List.map_cons, List.map_cons, List.cons.injEq] at h
      -- The predicate cannot tell the two trees apart, so both are kept or both are dropped.
      rw [List.filter_cons, List.filter_cons, hp tree tree' h.1]
      split
      · rw [List.map_cons, List.map_cons, h.1, ih h.2]
      · exact ih h.2

mutual

/-- The nodes below a tree have the shapes that are the nodes of its shape. -/
theorem shape_subtrees (tree : Tree) : tree.subtrees.map shape = tree.shape.nodes :=
  match tree with
  | .token _ => rfl
  | .node kind children => by
    rw [subtrees, List.map_cons, shape_subtreesOf children]
    rfl

theorem shape_subtreesOf (row : List Tree) :
    (subtreesOf row).map shape = Shape.nodesOf (shapesOf row) :=
  match row with
  | [] => rfl
  | tree :: more => by
    rw [subtreesOf, List.map_append, shape_subtrees tree, shape_subtreesOf more, shapesOf,
      Shape.nodesOf_cons]

end

theorem respects_isNode : Respects isNode := by
  rintro (_ | _) (_ | _) h
  · rfl
  · exact absurd h (by simp only [shape, reduceCtorEq, not_false_eq_true])
  · exact absurd h (by simp only [shape, reduceCtorEq, not_false_eq_true])
  · rfl

theorem shape_children {a b : Tree} (h : a.shape = b.shape) :
    a.children.map shape = b.children.map shape := by
  rcases a with tok | ⟨kind, row⟩ <;> rcases b with tok' | ⟨kind', row'⟩
  · rfl
  · exact absurd h (by simp only [shape, reduceCtorEq, not_false_eq_true])
  · exact absurd h (by simp only [shape, reduceCtorEq, not_false_eq_true])
  · rw [shape, shape, Shape.node.injEq, shapesOf_eq_map, shapesOf_eq_map] at h
    exact h.2

theorem shape_childNodes {a b : Tree} (h : a.shape = b.shape) :
    a.childNodes.map shape = b.childNodes.map shape :=
  filter_of_shapes respects_isNode (shape_children h)

/-- Trees of one shape begin with one word. -/
theorem word_firstToken? {a b : Tree} (h : a.shape = b.shape) :
    a.firstToken?.map Token.word = b.firstToken?.map Token.word := by
  have hwords (tree : Tree) : tree.firstToken?.map Token.word =
      (tree.shape.words.filter fun word => !word.kind.isTrivia).head? := by
    rw [words_shape, List.filter_map, firstToken?, significant, List.head?_map]
    rfl
  rw [hwords, hwords, h]

theorem respects_isEffect : Respects isEffect := by
  intro a b h
  have hfirst : (a.firstToken?.any fun tok => tok.text == ['+', '+'] || tok.text == ['-', '-']) =
      (b.firstToken?.any fun tok => tok.text == ['+', '+'] || tok.text == ['-', '-']) := by
    have hword (tree : Tree) :
        (tree.firstToken?.any fun tok => tok.text == ['+', '+'] || tok.text == ['-', '-']) =
          (tree.firstToken?.map Token.word).any fun word =>
            word.text == ['+', '+'] || word.text == ['-', '-'] := by
      rw [Option.any_map]
      rfl
    rw [hword, hword, word_firstToken? h]
  rw [isEffect, isEffect, kind_of_shape h, hfirst]

theorem respects_isEmptyIndex : Respects isEmptyIndex := by
  intro a b h
  have hlength := congrArg List.length (shape_childNodes h)
  rw [List.length_map, List.length_map] at hlength
  rw [isEmptyIndex, isEmptyIndex, kind_of_shape h, hlength]

/-- A chain of accesses starts where its first part does. -/
theorem isRootedAtVariable_node (kind : Kind) (row : List Tree) :
    (Tree.node kind row).isRootedAtVariable =
      (kind == .variable || (kind == .memberExpr || kind == .indexExpr) && isFirstRooted row) := by
  unfold isRootedAtVariable
  -- One branch for a token and for each kind that the definition asks about.
  split
  · rename_i heq
    exact absurd heq (by simp only [reduceCtorEq, not_false_eq_true])
  · rename_i heq
    rw [(Tree.node.inj heq).1]
    rfl
  · rename_i heq
    rw [(Tree.node.inj heq).1, (Tree.node.inj heq).2]
    rfl
  · rename_i heq
    rw [(Tree.node.inj heq).1, (Tree.node.inj heq).2]
    rfl
  · rename_i hvariable hmember hindex heq
    rw [← (Tree.node.inj heq).1] at hvariable hmember hindex
    rw [beq_eq_false_iff_ne.mpr hvariable, beq_eq_false_iff_ne.mpr hmember,
      beq_eq_false_iff_ne.mpr hindex]
    rfl

mutual

theorem isRootedAtVariable_of_shape (a b : Tree) (h : a.shape = b.shape) :
    a.isRootedAtVariable = b.isRootedAtVariable :=
  match a, b with
  | .token _, .token _ => rfl
  | .token _, .node _ _ => absurd h (by simp only [shape, reduceCtorEq, not_false_eq_true])
  | .node _ _, .token _ => absurd h (by simp only [shape, reduceCtorEq, not_false_eq_true])
  | .node kind row, .node kind' row' => by
    rw [shape, shape, Shape.node.injEq] at h
    rw [isRootedAtVariable_node, isRootedAtVariable_node, h.1,
      isFirstRooted_of_shapes row row' h.2]

theorem isFirstRooted_of_shapes (row other : List Tree) (h : shapesOf row = shapesOf other) :
    isFirstRooted row = isFirstRooted other :=
  match row, other with
  | [], [] => rfl
  | [], _ :: _ => absurd h (by simp only [shapesOf, reduceCtorEq, not_false_eq_true])
  | _ :: _, [] => absurd h (by simp only [shapesOf, reduceCtorEq, not_false_eq_true])
  -- Tokens are skipped until the first node on either side.
  | .token _ :: more, .token _ :: more' => by
    rw [shapesOf, shapesOf, List.cons.injEq] at h
    exact isFirstRooted_of_shapes more more' h.2
  | .token _ :: _, .node _ _ :: _ => absurd h (by simp only [shapesOf, shape, List.cons.injEq,
      reduceCtorEq, false_and, not_false_eq_true])
  | .node _ _ :: _, .token _ :: _ => absurd h (by simp only [shapesOf, shape, List.cons.injEq,
      reduceCtorEq, false_and, not_false_eq_true])
  | .node kind children :: _, .node kind' children' :: _ => by
    rw [shapesOf, shapesOf, List.cons.injEq] at h
    exact isRootedAtVariable_of_shape (.node kind children) (.node kind' children') h.1

end

/-- Trees of one shape have one class. -/
theorem exprClass_of_shape {a b : Tree} (h : a.shape = b.shape) : a.exprClass = b.exprClass := by
  -- A class is told by the kind, the root of an access, and what the nodes below do.
  have hsubtrees : a.subtrees.map shape = b.subtrees.map shape := by
    rw [shape_subtrees, shape_subtrees, h]
  have hinterpolatable : a.isInterpolatable = b.isInterpolatable := by
    rw [isInterpolatable, isInterpolatable, isRootedAtVariable_of_shape a b h,
      any_of_shapes respects_isEmptyIndex hsubtrees, hasSideEffects, hasSideEffects,
      any_of_shapes respects_isEffect hsubtrees]
  rw [exprClass, exprClass, kind_of_shape h, hinterpolatable]

theorem kind_of_stringLiteral {tree : Tree} (h : tree.exprClass = .stringLiteral) :
    tree.kind = .stringLiteral := by
  unfold exprClass at h
  split at h
  case h_1 hkind => exact hkind
  case h_3 | h_4 => split at h <;> exact absurd h (by decide)
  all_goals exact absurd h (by decide)

theorem kind_of_assignment {tree : Tree} (h : tree.exprClass = .assignment) :
    tree.kind = .assignExpr := by
  unfold exprClass at h
  split at h
  case h_5 hkind => exact hkind
  case h_3 | h_4 => split at h <;> exact absurd h (by decide)
  all_goals exact absurd h (by decide)

/-- An expression is no loop. -/
theorem exprClass_ne_loop {tree : Tree} (h : tree.kind.isExpr = true) : tree.exprClass ≠ .loop := by
  intro hloop
  unfold exprClass at hloop
  split at hloop
  case h_3 | h_4 => split at hloop <;> exact absurd hloop (by decide)
  case h_10 hkind | h_11 hkind | h_12 hkind | h_13 hkind =>
    rw [hkind] at h
    exact absurd h (by decide)
  all_goals exact absurd hloop (by decide)

/-- An assignment has an expression for its target. -/
theorem assign_of_shape {tree : Tree} (h : Grammar.Standalone tree.shape)
    (hkind : tree.kind = .assignExpr) :
    ∃ kind below tok more, tree = .node .assignExpr (.node kind below :: .token tok :: more) ∧
      Grammar.Standalone (Tree.node kind below).shape ∧ (Tree.node kind below).tokens ≠ [] := by
  have hshape : tree.shape.kind = .assignExpr := by rw [kind_shape, hkind]
  have hparts := h.parts
  generalize hnode : tree.shape = shape at hparts hshape
  -- No part of the grammar but an assignment has this kind.
  cases hparts with
  | short | ternary | paren => exact absurd hshape (by simp only [Shape.kind, reduceCtorEq,
      not_false_eq_true])
  | binary hbinding _ _ =>
    exact absurd hshape (Grammar.kind_ne_of_binding? hbinding (by decide) (by decide))
  | other _ hoperation _ =>
    rw [Shape.kind] at hshape
    rw [hshape] at hoperation
    exact absurd hoperation (by decide)
  | @assign op target value _ _ hleft _ =>
    have htarget := hleft.standalone rfl
    rcases htarget.exists_node with ⟨targetKind, targetRow, rfl⟩
    rcases tree with tok | ⟨kind, children⟩
    · exact absurd hnode (by simp only [Tree.shape, reduceCtorEq, not_false_eq_true])
    rw [Tree.shape, Shape.node.injEq] at hnode
    rcases node_of_shapesOf hnode.2 with ⟨below, rest, rfl, hbelow, hrest⟩
    rcases token_of_shapesOf hrest with ⟨tok, more, rfl, _, _⟩
    refine ⟨targetKind, below, tok, more, by rw [hnode.1], ?_, fun hnil =>
      htarget.words_ne_nil ?_⟩
    · rw [Tree.shape, hbelow]
      exact htarget
    · rw [← hbelow, Shape.words_node, wordsOf_shapesOf]
      exact congrArg (List.map Token.word) hnil

/-! ## A tree that was read again -/

/-- A tree that was read again from its text: it has the same shape, and the same tokens without the
    trivia at its ends. -/
structure Reread (tree again : Tree) : Prop where
  shape : again.shape = tree.shape
  tokens : again.tokens = Token.bare tree.tokens

/-- Trees of one shape whose tokens are the same but for the trivia at their ends. -/
theorem trimmed_of_bare {a b : Tree} (hshape : b.shape = a.shape)
    (htokens : Token.bare b.tokens = Token.bare a.tokens)
    (hkinds : ∀ tok ∈ a.tokens, tok.kind.isTrivia = false) : b.trimmed = a.trimmed := by
  have hkinds' : ∀ tok ∈ b.tokens, tok.kind.isTrivia = false := by
    intro tok htok
    have hword : tok.word ∈ a.tokens.map Token.word := by
      rw [← words_shape, ← hshape, words_shape]
      exact List.mem_map_of_mem htok
    rcases List.mem_map.mp hword with ⟨other, hother, heq⟩
    have hkind : other.kind = tok.kind := congrArg Word.kind heq
    rw [← hkind]
    exact hkinds other hother
  rw [trimmed_eq hkinds', trimmed_eq hkinds, Token.trimmed_eq_bare, htokens, Token.trimmed_eq_bare]

namespace Reread

variable {tree again : Tree}

theorem trimmed (h : Reread tree again) (hkinds : ∀ tok ∈ tree.tokens, tok.kind.isTrivia = false) :
    again.trimmed = tree.trimmed :=
  trimmed_of_bare h.shape (by rw [h.tokens, Token.bare_bare]) hkinds

/-- Trees that were read again have the same texts. -/
theorem map_trimmed {trees agains : List Tree} (h : List.Forall₂ Reread trees agains)
    (hkinds : ∀ tree ∈ trees, ∀ tok ∈ tree.tokens, tok.kind.isTrivia = false) :
    agains.map Tree.trimmed = trees.map Tree.trimmed := by
  induction h with
  | nil => rfl
  | cons hfirst _ ih =>
    rw [List.map_cons, List.map_cons, hfirst.trimmed (hkinds _ List.mem_cons_self),
      ih fun tree htree => hkinds tree (List.mem_cons_of_mem _ htree)]

/-- The target of an assignment that was read again. Nothing but the trivia in front of it can be
    other than it was. -/
theorem target (h : Reread tree again) (hkinds : ∀ tok ∈ tree.tokens, tok.kind.isTrivia = false)
    (hstandalone : Grammar.Standalone tree.shape) (hkind : tree.kind = .assignExpr) :
    ∃ first other, tree.childNodes.head? = some first ∧ again.childNodes.head? = some other ∧
      other.shape = first.shape ∧ other.trimmed = first.trimmed := by
  rcases assign_of_shape hstandalone hkind with ⟨kind, below, tok, more, rfl, _, hne⟩
  rcases again with tok' | ⟨kind', children⟩
  · exact absurd h.shape (by simp only [Tree.shape, reduceCtorEq, not_false_eq_true])
  have hshape := h.shape
  rw [Tree.shape, Tree.shape, Shape.node.injEq, shapesOf, Tree.shape] at hshape
  rcases node_of_shapesOf hshape.2 with ⟨below', rest, rfl, hbelow, hrest⟩
  -- The first child of both is the target, of the same shape and so of as many tokens.
  have hsame : (Tree.node kind below').shape = (Tree.node kind below).shape := by
    rw [Tree.shape, Tree.shape, hbelow]
  have hfront := Token.front_of_bare hne (List.cons_ne_nil tok (tokensOf more)) h.tokens
    (length_tokens_of_shape hsame)
  refine ⟨_, _, rfl, rfl, hsame, trimmed_of_bare hsame ?_ fun it hit => ?_⟩
  · rw [hfront, Token.bare_startWith]
  · exact hkinds it (List.mem_append_left _ hit)

end Reread

end Tree

/-! ## Resolving again -/

namespace Resolution

variable {tree again : Tree} {trees agains : List Tree}

theorem hoisted_reread (h : again.trimmed = tree.trimmed) (base : String) (ordinal : Nat)
    (names : Names) : hoisted base ordinal again names = hoisted base ordinal tree names := by
  rw [hoisted, hoisted, h]

/-- An operand that is read again is resolved as before. -/
theorem operand_reread (h : tree.Reread again) (hexcerpt : tree.Excerpt)
    (hstandalone : Grammar.Standalone tree.shape) (hliteral : tree.kind ≠ .stringLiteral)
    (index : Nat) (names : Names) : operand index again names = operand index tree names := by
  have htrimmed := h.trimmed hexcerpt.kinds
  have hhoisted (base : String) := hoisted_reread htrimmed base (index + 1) names
  -- The class is the same, and whatever the class, only texts of the operand are looked at.
  rw [operand, operand, Tree.exprClass_of_shape h.shape]
  rcases hclass : tree.exprClass with _ | _ | _ | _ | _ | _ | _ | _ | _
  case stringLiteral => exact absurd (Tree.kind_of_stringLiteral hclass) hliteral
  case assignment =>
    rcases h.target hexcerpt.kinds hstandalone (Tree.kind_of_assignment hclass) with
      ⟨first, other, hfirst, hother, hshape, htarget⟩
    -- An assignment is also asked for its target, in front of which there are no trivia any more.
    have htargets : (assignmentTarget? again).map Tree.trimmed =
        (assignmentTarget? tree).map Tree.trimmed := by
      rw [assignmentTarget?, assignmentTarget?, hfirst, hother]
      dsimp only
      rw [Tree.exprClass_of_shape hshape]
      split <;> simp only [Option.map_some, Option.map_none, htarget]
    dsimp only
    rw [hhoisted, htrimmed]
    rcases hnew : assignmentTarget? again with _ | target <;>
      rcases hold : assignmentTarget? tree with _ | target' <;>
      rw [hnew, hold] at htargets
    · exact absurd htargets (by simp only [Option.map_some, Option.map_none, reduceCtorEq,
        not_false_eq_true])
    · exact absurd htargets (by simp only [Option.map_some, Option.map_none, reduceCtorEq,
        not_false_eq_true])
    · rw [Option.map_some, Option.map_some, Option.some.injEq] at htargets
      dsimp only
      rw [htargets]
  case loop => rfl
  all_goals
    dsimp only
    first
    | rw [htrimmed]
    | rw [hhoisted]

/-- Operands that are read again are resolved as before. -/
theorem ofFrom_reread (h : List.Forall₂ Tree.Reread trees agains)
    (htrees : ∀ tree ∈ trees, tree.Excerpt ∧ Grammar.Standalone tree.shape ∧
      tree.kind ≠ .stringLiteral) (index : Nat) (names : Names) :
    ofFrom index agains names = ofFrom index trees names := by
  induction h generalizing index names with
  | nil => rfl
  | @cons tree again trees agains hfirst _ ih =>
    rcases htrees tree List.mem_cons_self with ⟨hexcerpt, hstandalone, hliteral⟩
    have hmore (names : Names) : ofFrom (index + 1) agains names = ofFrom (index + 1) trees names :=
      ih (fun tree htree => htrees tree (List.mem_cons_of_mem _ htree)) (index + 1) names
    rw [ofFrom, ofFrom, operand_reread hfirst hexcerpt hstandalone hliteral]
    simp only [hmore]

/-- An operand that is no literal becomes something in braces. -/
theorem operand_ok (hstandalone : Grammar.Standalone tree.shape)
    (hliteral : tree.kind ≠ .stringLiteral) (index : Nat) (names : Names) :
    ∃ step text, operand index tree names = .ok step ∧ step.text = braced text := by
  have hexpr : tree.kind.isExpr = true := by
    rw [← Tree.kind_shape]
    exact hstandalone.isExpr
  rw [operand]
  -- Every class but the two that may be refused puts a variable in braces.
  rcases hclass : tree.exprClass with _ | _ | _ | _ | _ | _ | _ | _ | _
  case stringLiteral => exact absurd (Tree.kind_of_stringLiteral hclass) hliteral
  case loop => exact absurd hclass (Tree.exprClass_ne_loop hexpr)
  case assignment =>
    dsimp only
    split
    · exact ⟨_, _, rfl, rfl⟩
    · exact ⟨_, _, rfl, rfl⟩
  all_goals exact ⟨_, _, rfl, rfl⟩

/-- Operands that are no literals each become something in braces. -/
theorem ofFrom_ok (htrees : ∀ tree ∈ trees, Grammar.Standalone tree.shape ∧
    tree.kind ≠ .stringLiteral) (index : Nat) (names : Names) :
    ∃ resolution after, ofFrom index trees names = .ok (resolution, after) ∧
      resolution.slots.length = trees.length ∧
        ∀ slot ∈ resolution.slots, ∃ text, slot.text = braced text := by
  induction trees generalizing index names with
  | nil => exact ⟨⟨[], []⟩, names, rfl, rfl, fun _ h => absurd h List.not_mem_nil⟩
  | cons tree trees ih =>
    rcases htrees tree List.mem_cons_self with ⟨hstandalone, hliteral⟩
    rcases operand_ok hstandalone hliteral index names with ⟨step, text, hstep, htext⟩
    rcases ih (fun tree htree => htrees tree (List.mem_cons_of_mem _ htree)) (index + 1) step.names
      with ⟨resolution, after, hmore, hlength, hslots⟩
    refine ⟨⟨⟨index, step.text⟩ :: resolution.slots, step.hoist.toList ++ resolution.hoists⟩, after,
      ?_, congrArg (· + 1) hlength, ?_⟩
    · rw [ofFrom, hstep]
      dsimp only [bind, Except.bind]
      rw [hmore]
      rfl
    · intro slot hslot
      rcases List.mem_cons.mp hslot with rfl | hslot
      · exact ⟨text, htext⟩
      · exact hslots slot hslot

end Resolution

end PhpAssist

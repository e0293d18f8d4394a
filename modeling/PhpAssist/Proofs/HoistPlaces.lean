import PhpAssist.Proofs.ConcatPlan
import PhpAssist.Proofs.TernaryParts

/-!
# Where nothing is hoisted from

A hoisted statement runs once, right before the statement that the concatenation stands in. That is
right only where the concatenation runs once each time the statement does. On the way from the
concatenation out to the statement there must then be no node that may skip the child the way goes
through, or run it more than once.

One such node goes unnoticed: behind `?->` the arguments of a call, an index or a computed name are
skipped where the object is null, and a hoist out of them runs nevertheless.

## Main definitions

* `Node.Behind`: A child behind a token of its parent.
* `Node.MaySkip`: A node that may skip a child, or run it more than once.
* `Node.OnWay`: A step on the way from a node out to its anchor.
* `Node.SkippedByNull`: A child that is skipped where the object of a chain is null.

## Theorems

* `Node.childNodes_pairwise`: Children are numbered from left to right.
* `ConcatChain.conditionalChild?_of_maySkip`: The check of one step notices each of these nodes.
* `ConcatChain.hoists_where_nothing_skips`: No step on the way of a concatenation that hoists is
  one of them.
* `ConcatChain.hoists_behind_nullsafe`: A hoist out of an argument behind `?->`.
-/

namespace PhpAssist

/-- The text of a tree whose tokens were read from a text is not empty. -/
theorem Tree.Excerpt.trimmed_ne_nil {tree : Tree} (h : tree.Excerpt) : tree.trimmed ≠ [] := by
  rcases h.lexes with ⟨text, rest, hlexes⟩
  rcases List.exists_mem_of_ne_nil tree.tokens h.ne_nil with ⟨tok, htok⟩
  have hword : tok.word ∈ (Token.startWith [] (Token.endWith [] tree.tokens)).map Token.word := by
    rw [Token.word_startWith, Token.word_endWith]
    exact List.mem_map_of_mem htok
  rcases List.mem_map.mp hword with ⟨tok', htok', hsame⟩
  rw [Tree.trimmed_eq h.kinds, Token.trimmed]
  intro hnil
  have hempty := List.flatMap_eq_nil_iff.mp hnil tok' htok'
  rw [Token.fullText, List.append_eq_nil_iff, List.append_eq_nil_iff] at hempty
  exact hlexes.text_ne_nil tok htok ((congrArg Word.text hsame).symm.trans hempty.1.2)

theorem Tree.Excerpt.span_length_ne_zero {node : Node} (h : node.tree.Excerpt) :
    node.span.length ≠ 0 := by
  rcases List.exists_mem_of_ne_nil node.tree.tokens h.ne_nil with ⟨tok, htok⟩
  have hpiece : (⟨tok.kind, tok.text⟩ : Piece) ∈ node.tree.pieces := by
    refine List.mem_flatMap.mpr ⟨tok, htok, ?_⟩
    rw [Token.pieces, List.mem_append]
    exact .inr List.mem_cons_self
  have hkind := h.kinds tok htok
  rw [Node.span, if_neg]
  · exact Nat.ne_of_gt (Text.size_pos h.trimmed_ne_nil)
  · intro hall
    have htrivia := List.all_eq_true.mp hall _ hpiece
    rw [hkind] at htrivia
    exact absurd htrivia Bool.false_ne_true

namespace Node

/-! ## Children from left to right -/

/-- Children are numbered from left to right, and behind the place where the first begins. -/
theorem placeChildren_pairwise (parents : List Node) (place : Place) (row : List Tree) :
    ((placeChildren parents place row).filterMap Element.node?).Pairwise
        (fun left right => left.number < right.number) ∧
      ∀ node ∈ (placeChildren parents place row).filterMap Element.node?,
        place.nodes ≤ node.number := by
  induction row generalizing place with
  | nil => exact ⟨.nil, fun node hnode => absurd hnode List.not_mem_nil⟩
  | cons tree more ih =>
    -- A token has no number; a node takes at least one before the next.
    rcases tree with tok | ⟨kind, children⟩
    · rw [placeChildren, List.filterMap_cons_none (f := Element.node?) rfl]
      exact ih (place.after (.token tok))
    · rw [placeChildren, List.filterMap_cons_some (f := Element.node?) rfl]
      rcases ih (place.after (.node kind children)) with ⟨hpairwise, hbehind⟩
      have hnodes : place.nodes < (place.after (.node kind children)).nodes := by
        simp only [Place.after, Tree.nodeCount, Tree.subtrees, List.length_cons]
        omega
      refine ⟨List.pairwise_cons.mpr ⟨fun node hnode => ?_, hpairwise⟩, fun node hnode => ?_⟩
      · exact Nat.lt_of_lt_of_le hnodes (hbehind node hnode)
      · rcases List.mem_cons.mp hnode with rfl | hnode
        · exact Nat.le_refl _
        · exact Nat.le_of_lt (Nat.lt_of_lt_of_le hnodes (hbehind node hnode))

/-- Children are numbered from left to right. -/
theorem childNodes_pairwise (node : Node) :
    node.childNodes.Pairwise fun left right => left.number < right.number :=
  (placeChildren_pairwise node.ancestors node.place.inside node.children).1

/-- A child behind a token of its parent. -/
def Behind (parent : Node) (token : Leaf) (child : Node) : Prop :=
  ∃ front back, parent.elements = front ++ .leaf token :: back ∧ .node child ∈ back

/-- A child in front of a token is another one than a child behind it. -/
theorem same_of_front {parent left right : Node} {token : Leaf} {front back : List Element}
    (helements : parent.elements = front ++ .leaf token :: back) (hleft : .node left ∈ front)
    (hright : .node right ∈ back) : left.same right = false := by
  have hpairwise := parent.childNodes_pairwise
  rw [childNodes, helements, List.filterMap_append,
    List.filterMap_cons_none (f := Element.node?) rfl] at hpairwise
  have hless := (List.pairwise_append.mp hpairwise).2.2 left
    (List.mem_filterMap.mpr ⟨_, hleft, rfl⟩) right (List.mem_filterMap.mpr ⟨_, hright, rfl⟩)
  rw [same, beq_eq_false_iff_ne]
  exact Nat.ne_of_lt hless

/-- Behind a `?` or a `:` no condition begins. -/
theorem find?_condition_behind {current : TernaryPart} (h : current ≠ .condition)
    (row : List Element) : TernaryPart.find? .condition current row = none := by
  induction row generalizing current with
  | nil => rfl
  | cons element more ih =>
    cases element with
    | node it => rw [TernaryPart.find?, if_neg h, ih h]
    | leaf it =>
      rw [TernaryPart.find?]
      refine ih ?_
      -- No separator leads back to the condition.
      unfold TernaryPart.behind
      split
      · exact fun heq => absurd heq (by decide)
      · exact fun heq => absurd heq (by decide)
      · exact h

/-- The condition of a conditional stands in front of its `?`. -/
theorem condition_in_front {question : Leaf} {condition : Node} {front back : List Element}
    (hquestion : question.kind = .question)
    (h : TernaryPart.find? .condition .condition (front ++ .leaf question :: back) =
      some condition) : .node condition ∈ front := by
  induction front with
  | nil =>
    rw [List.nil_append, TernaryPart.find?, hquestion, TernaryPart.behind,
      find?_condition_behind (by decide)] at h
    exact absurd h (by simp only [reduceCtorEq, not_false_eq_true])
  | cons element front ih =>
    cases element with
    | node it =>
      rw [List.cons_append, TernaryPart.find?, if_pos rfl, Option.some.injEq] at h
      rw [h]
      exact List.mem_cons_self
    | leaf it =>
      rw [List.cons_append, TernaryPart.find?] at h
      -- Another leaf may stand ahead of the question mark; a separator ends the search.
      by_cases hcondition : TernaryPart.behind .condition it.kind = .condition
      · rw [hcondition] at h
        exact List.mem_cons_of_mem _ (ih h)
      · rw [find?_condition_behind hcondition] at h
        exact absurd h (by simp only [reduceCtorEq, not_false_eq_true])

/-- The children of an operation: an operand, the operator, and the other operand. -/
theorem elements_of_operation {node : Node} {kind : Kind} {op : Word} {left right : Shape}
    (h : node.tree.shape = .node kind [left, .word op, right])
    (hleft : ∃ kind row, left = .node kind row) (hright : ∃ kind row, right = .node kind row) :
    ∃ first leaf second, node.elements = [.node first, .leaf leaf, .node second] ∧
      leaf.token.word = op := by
  rcases hleft with ⟨leftKind, leftRow, rfl⟩
  rcases hright with ⟨rightKind, rightRow, rfl⟩
  rcases shapesOf_children h with ⟨_, hchildren⟩
  rcases Tree.node_of_shapesOf hchildren with ⟨below, rest, hrow, _, hrest⟩
  rcases Tree.token_of_shapesOf hrest with ⟨tok, rest, rfl, htok, hrest⟩
  rcases Tree.node_of_shapesOf hrest with ⟨below', rest, rfl, _, hrest⟩
  rw [Tree.shapesOf_eq_nil hrest] at hrow
  rw [elements, hrow]
  exact ⟨_, _, _, rfl, htok⟩

/-- What stands behind a token of an operation is its second operand, and the token is its
    operator. -/
theorem Behind.of_operation {node first second child : Node} {leaf token : Leaf}
    (helements : node.elements = [.node first, .leaf leaf, .node second])
    (h : node.Behind token child) : token = leaf ∧ child = second := by
  rcases h with ⟨front, back, hsplit, hchild⟩
  rw [helements] at hsplit
  -- The one leaf is the second of three elements.
  rcases front with _ | ⟨element, _ | ⟨element', _ | ⟨element'', front⟩⟩⟩
  · simp only [List.nil_append, List.cons.injEq, reduceCtorEq, false_and] at hsplit
  · simp only [List.cons_append, List.nil_append, List.cons.injEq, Element.leaf.injEq] at hsplit
    rw [← hsplit.2.2, List.mem_singleton, Element.node.injEq] at hchild
    exact ⟨hsplit.2.1.symm, hchild⟩
  · simp only [List.cons_append, List.nil_append, List.cons.injEq, reduceCtorEq, false_and,
      and_false] at hsplit
  · have hlength := congrArg List.length hsplit
    simp only [List.length_cons, List.length_nil, List.length_append, List.cons_append] at hlength
    omega

/-- The other operand of an operation is its second child. -/
theorem second?_of_operation {node first second : Node} {leaf : Leaf}
    (helements : node.elements = [.node first, .leaf leaf, .node second]) :
    node.second? = some second := by
  rw [second?, childNodes, helements]
  rfl

/-- The children of an operation of the table. -/
theorem elements_of_binary {node : Node} (h : Grammar.Standalone node.tree.shape)
    (hkind : node.kind = .binaryExpr) :
    ∃ first leaf second, node.elements = [.node first, .leaf leaf, .node second] ∧
      leaf.kind = .operator := by
  rcases binary_of_kind h hkind with ⟨_, word, _, tok, hshape, _, _, hoperator⟩
  -- That the operands are nodes is what the grammar says of the parts of such an operation.
  have hparts := h.parts
  rw [hshape] at hparts
  generalize hnode : Shape.node .binaryExpr _ = shape at hparts
  cases hparts with
  | assign | short | ternary | paren => exact absurd hnode (by simp only [Shape.node.injEq,
      reduceCtorEq, false_and, not_false_eq_true])
  | other _ hoperation _ =>
    injection hnode with hkind
    rw [← hkind] at hoperation
    exact absurd hoperation (by decide)
  | binary _ hleft hright =>
    injection hnode with _ hrow
    simp only [List.cons.injEq] at hrow
    rw [← hrow.1] at hleft
    rw [← hrow.2.2.1] at hright
    rcases elements_of_operation hshape hleft.exists_node hright.exists_node with
      ⟨first, leaf, second, helements, hleaf⟩
    refine ⟨first, leaf, second, helements, ?_⟩
    rw [Leaf.kind, show leaf.token.kind = leaf.token.word.kind from rfl, hleaf, hoperator]

/-- The children of an assignment. -/
theorem elements_of_assign {node : Node} (h : Grammar.Standalone node.tree.shape)
    (hkind : node.kind = .assignExpr) :
    ∃ first leaf second, node.elements = [.node first, .leaf leaf, .node second] ∧
      (leaf.kind = .equals ∨ leaf.kind = .assignOp) := by
  rcases assign_of_kind h hkind with ⟨target, op, value, _, _, _, hop, _, _, _, hshape⟩
  rcases elements_of_operation hshape ⟨_, _, target.shape_tree⟩ ⟨_, _, value.shape_tree⟩ with
    ⟨first, leaf, second, helements, hleaf⟩
  refine ⟨first, leaf, second, helements, ?_⟩
  rw [Leaf.kind, show leaf.token.kind = leaf.token.word.kind from rfl, hleaf]
  exact hop

/-! ## What may skip a child -/

/-- A node that may skip a child when it runs, or run it more than once. What is skipped
    behind `?->` is not among them. -/
inductive MaySkip (parent child : Node) : Prop
  | branch {question : Leaf} (hkind : parent.kind = .ternaryExpr)
      (hbehind : parent.Behind question child) (hquestion : question.kind = .question)
  | shortCircuit {op : Leaf} (hkind : parent.kind = .binaryExpr) (hbehind : parent.Behind op child)
      (hop : Text.lower op.token.text ∈
        ["&&".toList, "||".toList, "??".toList, "and".toList, "or".toList])
  | coalesce {op : Leaf} (hkind : parent.kind = .assignExpr) (hbehind : parent.Behind op child)
      (hop : op.token.text = "??=".toList)
  | clause (hkind : parent.kind ∈ [.elseifClause, .elseClause])
  | loop (hkind : parent.kind ∈ [.whileStmt, .doWhileStmt, .forStmt, .foreachStmt])
  | body (hkind : parent.kind = .ifStmt) (hchild : child.kind.isStatement = true)
  | parameter (hkind : parent.kind ∈ [.functionDef, .paramList, .param])

/-- A step on the way from a node out to its anchor: from a node that is not the anchor to the node
    around it. -/
def OnWay (node anchor child parent : Node) : Prop :=
  ∃ inner outer, node.ancestors = inner ++ child :: parent :: outer ∧ anchor ∉ inner ++ [child]

/-- A chain of accesses with `?->` in it. -/
inductive Nullsafe : Node → Prop
  | arrow {node : Node} {arrow : Leaf} (harrow : arrow ∈ node.childLeaves)
      (htext : arrow.token.text = "?->".toList) : Nullsafe node
  | base {node first : Node} (hkind : node.kind ∈ [.callExpr, .indexExpr, .memberExpr])
      (hfirst : node.first? = some first) (h : Nullsafe first) : Nullsafe node

/-- A child that is skipped where the object in front of a `?->` is null: everything in a chain but
    what it starts with. -/
def SkippedByNull (parent child : Node) : Prop :=
  parent.Nullsafe ∧ child ∈ parent.childNodes.tail

end Node

namespace ConcatChain

open Node

variable {root anchor parent child : Node}

/-- The check of one step notices every node that may skip a child. -/
theorem conditionalChild?_of_maySkip
    (hexprs : parent.kind.isExpr = true → Grammar.Standalone parent.tree.shape)
    (h : MaySkip parent child) : (conditionalChild? parent child).isSome = true := by
  unfold conditionalChild?
  cases h with
  | @branch question hkind hbehind hquestion =>
    rw [hkind]
    rcases hbehind with ⟨front, back, helements, hchild⟩
    -- The condition is in front of the question mark, so the child is another one.
    have hother : ((parent.ternaryPart? .condition).any fun condition => condition.same child) =
        false := by
      rcases hcondition : parent.ternaryPart? .condition with _ | condition
      · rfl
      · rw [ternaryPart?, helements] at hcondition
        exact same_of_front helements (condition_in_front hquestion hcondition) hchild
    simp only [hother, Bool.false_eq_true, if_false, Option.isSome_some]
  | @shortCircuit op hkind hbehind hop =>
    -- The only child behind an operator is the second one, and there is only one operator.
    rcases elements_of_binary (hexprs (by rw [hkind]; rfl)) hkind with
      ⟨first, leaf, second, helements, hoperator⟩
    rcases hbehind.of_operation helements with ⟨rfl, rfl⟩
    have hshort : shortCircuits.contains (Text.lower op.token.text) = true :=
      List.contains_iff_mem.mpr hop
    have hsecond := second?_of_operation helements
    have hfirst : parent.operator? = some op := by
      rw [operator?, childLeaf?, childLeaves, helements]
      simp only [List.filterMap_cons, Element.leaf?, List.filterMap_nil, List.find?_cons, hoperator,
        beq_self_eq_true]
    rw [hkind]
    simp only [hsecond, hfirst, Option.any_some, hshort, same, beq_self_eq_true, Bool.and_self,
      if_true, Option.isSome_some]
  | @coalesce op hkind hbehind hop =>
    rcases elements_of_assign (hexprs (by rw [hkind]; rfl)) hkind with
      ⟨first, leaf, second, helements, hoperator⟩
    rcases hbehind.of_operation helements with ⟨rfl, rfl⟩
    have hassigns : (op.kind == .equals || op.kind == .assignOp) = true := by
      rw [Bool.or_eq_true, beq_iff_eq, beq_iff_eq]
      exact hoperator
    have hsecond := second?_of_operation helements
    have hfirst : parent.assignOp? = some op := by
      rw [assignOp?, childLeaf?, childLeaves, helements]
      simp only [List.filterMap_cons, Element.leaf?, List.filterMap_nil, List.find?_cons, hassigns]
    have hcoalesces : (op.token.text == ['?', '?', '=']) = true := beq_iff_eq.mpr hop
    rw [hkind]
    simp only [hsecond, hfirst, Option.any_some, hcoalesces, same, beq_self_eq_true, Bool.and_self,
      if_true, Option.isSome_some]
  | clause hkind =>
    simp only [List.mem_cons, List.not_mem_nil, or_false] at hkind
    rcases hkind with hkind | hkind <;> rw [hkind] <;> rfl
  | loop hkind =>
    simp only [List.mem_cons, List.not_mem_nil, or_false] at hkind
    rcases hkind with hkind | hkind | hkind | hkind <;> rw [hkind] <;> rfl
  | body hkind hchild =>
    rw [hkind]
    simp only [hchild, if_true, Option.isSome_some]
  | parameter hkind =>
    simp only [List.mem_cons, List.not_mem_nil, or_false] at hkind
    rcases hkind with hkind | hkind | hkind <;> rw [hkind] <;> rfl

/-- Where the check of the whole way finds nothing, the check of each step on it found nothing. -/
theorem conditionalChild?_eq_none {parents inner outer : List Node} {first : Node}
    (hanchor : anchor ∈ root.descendants) (hparents : parents ⊆ root.descendants)
    (h : conditionalFrom? anchor first parents = none)
    (hway : first :: parents = inner ++ child :: parent :: outer)
    (hnot : anchor ∉ inner ++ [child]) : conditionalChild? parent child = none := by
  -- The check stops at the anchor only, and the anchor is not among the nodes before the step.
  induction inner generalizing first parents with
  | nil =>
    injection hway with hfirst hparents
    rw [hparents, conditionalFrom?, hfirst] at h
    rcases hchild : conditionalChild? parent child with _ | place
    · rfl
    · rw [hchild] at h
      exact absurd h (by simp only [reduceCtorEq, not_false_eq_true])
  | cons node inner ih =>
    injection hway with hfirst hrow
    rcases parents with _ | ⟨next, parents⟩
    · exact absurd hrow.symm (List.append_ne_nil_of_right_ne_nil _ (List.cons_ne_nil _ _))
    have hnext : next ∈ inner ++ [child] := by
      rcases inner with _ | ⟨node', inner⟩
      · injection hrow with hhead
        rw [hhead]
        exact List.mem_singleton_self child
      · injection hrow with hhead
        rw [hhead]
        exact List.mem_cons_self
    rw [List.cons_append, List.mem_cons, not_or] at hnot
    have hother : next.same anchor = false := by
      refine Bool.eq_false_iff.mpr fun hsame => hnot.2 ?_
      rw [← eq_of_same (hparents List.mem_cons_self) hanchor hsame]
      exact hnext
    rw [conditionalFrom?] at h
    rcases hplace : conditionalChild? next first with _ | place
    · rw [hplace, hother] at h
      exact ih (List.cons_subset.mp hparents).2 h hrow hnot.2
    · rw [hplace] at h
      exact absurd h (by simp only [reduceCtorEq, not_false_eq_true])

/-- Where the rewrite of a concatenation in a text without diagnostics hoists, no node on the way
    out to the statement may skip the child on the way, or run it more than once. -/
theorem hoists_where_nothing_skips {text : Text} {context : AssistContext} {change : Change}
    (hclean : (Parse.file text).diagnostics = []) (hparse : context.parse = Parse.file text)
    (h : context.apply .concatToHeredoc = .ok change)
    (hhoist : ∃ edit ∈ change.edits, edit.isInsertion = true) :
    ∃ concat anchor, topmost? context = some concat ∧ concat.anchor? = some anchor ∧
      ∀ child parent, concat.OnWay anchor child parent → ¬ MaySkip parent child := by
  rcases rewrite_of_change h with ⟨rewrite⟩
  have hancestors := rewrite.ancestors_subset hclean hparse
  have hanchor := hancestors (List.mem_of_find?_eq_some rewrite.anchored)
  have hexcerpt : rewrite.concat.tree.Excerpt :=
    Parse.excerpt_of_expr hclean (hparse ▸ hancestors List.mem_cons_self)
      (by rw [rewrite.concat_of_ancestors.2]; rfl)
  -- Something is inserted, so something is hoisted and the check of the way was made.
  have hhoists := rewrite.hoists_ne_nil hexcerpt.span_length_ne_zero hhoist
  refine ⟨rewrite.concat, rewrite.anchor, rewrite.topmost, rewrite.anchored, ?_⟩
  rintro child parent ⟨inner, outer, hway, hnot⟩ hskip
  have hnone := conditionalChild?_eq_none hanchor
    (List.Subset.trans (List.subset_cons_self _ _) hancestors) (rewrite.unconditional hhoists)
    hway hnot
  have hparent : parent ∈ rewrite.concat.ancestors := by
    rw [hway]
    simp only [List.mem_append, List.mem_cons, true_or, or_true]
  have hsome := conditionalChild?_of_maySkip (fun hexpr =>
    Parse.standalone_of_expr hclean (hparse ▸ hancestors hparent) hexpr) hskip
  rw [hnone] at hsome
  exact absurd hsome Bool.false_ne_true

/-- A call in an argument is hoisted, since the argument is evaluated whenever the statement is. -/
theorem hoists_where_nothing_skips_argument :
    (Parse.file "<?php $x = g('a' . f());".toList).diagnostics = [] ∧
      ∃ change, AssistContext.apply
          ⟨Parse.file "<?php $x = g('a' . f());".toList, 17, .default⟩ .concatToHeredoc =
            .ok change ∧
        (∃ edit ∈ change.edits, edit.isInsertion = true) ∧
        ∃ concat anchor : Node, concat.anchor? = some anchor ∧
          ∀ child parent, concat.OnWay anchor child parent → ¬ MaySkip parent child := by
  obtain ⟨hclean, hany⟩ :
      (Parse.file "<?php $x = g('a' . f());".toList).diagnostics = [] ∧
      (AssistContext.apply
        ⟨Parse.file "<?php $x = g('a' . f());".toList, 17, .default⟩ .concatToHeredoc).toOption.any
        (fun change => change.edits.any Edit.isInsertion) = true := by
    decide +kernel
  rcases eq_ok_of_any hany with ⟨change, hchange, hinsertion⟩
  have hhoist := List.any_eq_true.mp hinsertion
  rcases hoists_where_nothing_skips hclean rfl hchange hhoist with
    ⟨concat, anchor, _, hanchor, hway⟩
  exact ⟨hclean, change, hchange, hhoist, concat, anchor, hanchor, hway⟩

/-- A call in an argument behind `?->` is hoisted too, although the argument is skipped where the
    object is null. -/
theorem hoists_behind_nullsafe :
    (Parse.file "<?php $x = $o?->m('a' . f());".toList).diagnostics = [] ∧
      ∃ change concat anchor child parent,
        AssistContext.apply
          ⟨Parse.file "<?php $x = $o?->m('a' . f());".toList, 22, .default⟩ .concatToHeredoc =
            .ok change ∧
        (∃ edit ∈ change.edits, edit.isInsertion = true) ∧
        topmost? ⟨Parse.file "<?php $x = $o?->m('a' . f());".toList, 22, .default⟩ = some concat ∧
        concat.anchor? = some anchor ∧ concat.OnWay anchor child parent ∧
        SkippedByNull parent child := by
  -- The list of arguments around the concatenation, the call around the list, and what is called.
  obtain ⟨hclean, hany, hcheck⟩ :
      (Parse.file "<?php $x = $o?->m('a' . f());".toList).diagnostics = [] ∧
      (AssistContext.apply
        ⟨Parse.file "<?php $x = $o?->m('a' . f());".toList, 22, .default⟩
        .concatToHeredoc).toOption.any (fun change => change.edits.any Edit.isInsertion) = true ∧
      ((topmost? ⟨Parse.file "<?php $x = $o?->m('a' . f());".toList, 22,
        .default⟩).any fun concat =>
        concat.parents.length ≥ 2 &&
        (concat.anchor?.any fun anchor => anchor.kind == .exprStmt) &&
        (concat.parents.head?.any fun args => args.kind == .argList &&
          concat.parents.tail.head?.any fun call => call.kind == .callExpr &&
            (call.childNodes.tail.head?.any fun second => second.same args) &&
            call.first?.any fun callee =>
              callee.childLeaves.any fun arrow => arrow.token.text == "?->".toList)) = true := by
    decide +kernel
  rcases eq_ok_of_any hany with ⟨change, hchange, hinsertion⟩
  rcases rewrite_of_change hchange with ⟨rewrite⟩
  have hancestors := rewrite.ancestors_subset hclean rfl
  rw [rewrite.topmost, Option.any_some, rewrite.anchored, Option.any_some] at hcheck
  rcases hparents : rewrite.concat.parents with _ | ⟨args, _ | ⟨call, outer⟩⟩
  · rw [hparents] at hcheck
    exact absurd hcheck Bool.false_ne_true
  · rw [hparents] at hcheck
    exact absurd hcheck Bool.false_ne_true
  rw [Node.ancestors, hparents] at hancestors
  have hargs := hancestors (List.mem_cons_of_mem _ List.mem_cons_self)
  have hcall := hancestors (List.mem_cons_of_mem _ (List.mem_cons_of_mem _ List.mem_cons_self))
  simp only [hparents, List.head?_cons, List.tail_cons, Option.any_some, Bool.and_eq_true,
    beq_iff_eq] at hcheck
  rcases hcheck with ⟨⟨_, hanchorKind⟩, hargsKind, ⟨hcallKind, hsecond⟩, hchain⟩
  rcases (Option.any_eq_true _ _).mp hsecond with ⟨second, hsecond, hsame⟩
  rcases (Option.any_eq_true _ _).mp hchain with ⟨callee, hcallee, hnullsafe⟩
  rcases List.any_eq_true.mp hnullsafe with ⟨arrow, harrow, htext⟩
  have hsecond := List.mem_of_head? hsecond
  have heq := eq_of_same
    (mem_descendants_of_child hcall (mem_elements_of_childNodes (List.mem_of_mem_tail hsecond)))
    hargs hsame
  have hnullsafe : call.Nullsafe :=
    .base (by rw [hcallKind]; decide) hcallee (.arrow harrow (beq_iff_eq.mp htext))
  refine ⟨hclean, change, rewrite.concat, rewrite.anchor, args, call, hchange,
    List.any_eq_true.mp hinsertion, rewrite.topmost, rewrite.anchored, ?_, hnullsafe, ?_⟩
  · refine ⟨[rewrite.concat], outer, by rw [Node.ancestors, hparents]; rfl, fun hmem => ?_⟩
    rcases List.mem_cons.mp hmem with hanchor | hmem
    · rw [hanchor, rewrite.concat_of_ancestors.2] at hanchorKind
      exact absurd hanchorKind (by decide)
    · rw [List.mem_singleton.mp hmem, hargsKind] at hanchorKind
      exact absurd hanchorKind (by decide)
  · rw [← heq]
    exact hsecond

end ConcatChain

end PhpAssist

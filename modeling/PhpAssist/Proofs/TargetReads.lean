import PhpAssist.Proofs.HoistOrder
import PhpAssist.Proofs.RunOrder
import PhpAssist.Proofs.SplitDeclarations

/-!
# What the target of a split assignment reads

The target of an assignment is looked at before its value is evaluated, as far as it has to be
computed: the sum in `$a[$i + 1]` is added up first. The condition that is written evaluates what
the conditional asked in front of both copies of the target, so the two change places.

Two pieces of code may change places if neither assigns what the other one reads. One half of this
is looked after, since a target that does anything by itself is refused. The other half is not:
nothing asks what the condition assigns. What is written is right about it as far as the condition
leaves alone what the target reads where it is computed.

That the branches assign something does not matter, because in a branch the target is looked at
first, as it was.

## Main definitions

* `Tree.computedReads`: The variables that are read where an element or a member is computed.
* `Node.Leads`: Something in a node that has nothing in front of it that runs.

## Theorems

* `Tree.effects_of_shape`, `Tree.assigned_of_shape`, `Tree.computedReads_of_shape`: What trees of
  one shape do and read.
* `Tree.same_unwrapped`: Parentheses do nothing by themselves.
* `Node.split_first`: Nothing runs in front of the first part of a node.
* `TernaryAssignment.target_behind_condition`: What runs in front of the target, before and after.
* `TernaryAssignment.target_overtaken`: A condition that assigns what the target reads.
-/

namespace PhpAssist

open Text

namespace Shape

/-- Whether a shape is a node. -/
def isNode : Shape → Bool
  | .word _ => false
  | .node _ _ => true

/-- The children that are nodes. -/
def childNodes (shape : Shape) : List Shape := shape.children.filter isNode

/-- The parts of the condition that is written. -/
theorem childNodes_choice {condition target whenTrue whenFalse : Shape} {op : Word}
    (h : condition.isNode = true) : (choice condition target op whenTrue whenFalse).childNodes =
      [condition, assignment target op whenTrue,
        .node .elseClause [.word ⟨.elseKw, "else".toList⟩, assignment target op whenFalse]] := by
  rw [choice, childNodes, children, List.filter_cons_of_neg (Bool.false_ne_true),
    List.filter_cons_of_neg (Bool.false_ne_true), List.filter_cons_of_pos h]
  rfl

end Shape

namespace Tree

/-! ## What a tree reads and does -/

/-- The variables that are read to compute which element or which member is meant. A plain variable
    is not computed: it is read when the value is there. -/
def readsToCompute (tree : Tree) : List Text :=
  match tree.kind with
  | .indexExpr | .memberExpr | .staticExpr =>
    tree.childNodes[1]?.elim [] fun part =>
      if part.kind = .variable then [] else (Names.ofTokens part.significant).taken
  | _ => []

/-- The variables that are read where an element or a member is computed. -/
def computedReads (tree : Tree) : List Text := tree.subtrees.flatMap readsToCompute

variable {a b : Tree}

theorem flatMap_of_shapes {α : Type} {f : Tree → List α}
    (hf : ∀ a b : Tree, a.shape = b.shape → f a = f b) {row other : List Tree}
    (h : row.map shape = other.map shape) : row.flatMap f = other.flatMap f := by
  induction row generalizing other with
  | nil =>
    rw [List.map_nil, eq_comm, List.map_eq_nil_iff] at h
    rw [h]
  | cons tree row ih =>
    rcases other with _ | ⟨tree', other⟩
    · exact absurd h (List.cons_ne_nil _ _)
    · rw [List.map_cons, List.map_cons, List.cons.injEq] at h
      rw [List.flatMap_cons, List.flatMap_cons, hf tree tree' h.1, ih h.2]

theorem shapes_subtrees (h : a.shape = b.shape) : a.subtrees.map shape = b.subtrees.map shape := by
  rw [shape_subtrees, shape_subtrees, h]

theorem names_of_shape (h : a.shape = b.shape) :
    (Names.ofTokens a.significant).taken = (Names.ofTokens b.significant).taken := by
  rw [names_shape, names_shape, h]

/-- The children at one place of trees of one shape are alike. -/
theorem elim_child_of_shape {α : Type} {f : Tree → List α}
    (hf : ∀ a b : Tree, a.shape = b.shape → f a = f b) (h : a.shape = b.shape) (index : Nat) :
    a.childNodes[index]?.elim [] f = b.childNodes[index]?.elim [] f := by
  have hchild : a.childNodes[index]?.map shape = b.childNodes[index]?.map shape := by
    rw [← List.getElem?_map, ← List.getElem?_map, shape_childNodes h]
  cases ha : a.childNodes[index]? with
  | none =>
    rw [ha, Option.map_none, eq_comm, Option.map_eq_none_iff] at hchild
    rw [hchild]
  | some part =>
    rw [ha, Option.map_some, eq_comm, Option.map_eq_some_iff] at hchild
    rcases hchild with ⟨part', hpart, hshape⟩
    rw [hpart]
    exact hf part part' hshape.symm

/-- Trees of one shape read the same where something in them is computed. -/
theorem computedReads_of_shape (h : a.shape = b.shape) : a.computedReads = b.computedReads := by
  refine flatMap_of_shapes (fun a b h => ?_) (shapes_subtrees h)
  have hpart := elim_child_of_shape (f := fun part =>
    if part.kind = .variable then [] else (Names.ofTokens part.significant).taken)
    (fun a b h => by rw [kind_of_shape h, names_of_shape h]) h 1
  rw [readsToCompute, readsToCompute, kind_of_shape h, hpart]

theorem targetNames_of_shape (h : a.shape = b.shape) : a.targetNames = b.targetNames := by
  have hfirst := elim_child_of_shape (f := fun target => (Names.ofTokens target.significant).taken)
    (fun a b h => names_of_shape h) h 0
  rw [targetNames, targetNames, List.head?_eq_getElem?, List.head?_eq_getElem?, hfirst]

/-- Trees of one shape assign the same. -/
theorem assigned_of_shape (h : a.shape = b.shape) : a.assigned = b.assigned := by
  refine flatMap_of_shapes (fun a b h => ?_) (shapes_subtrees h)
  rw [kind_of_shape h, targetNames_of_shape h, respects_isEffect a b h]

mutual

/-- Trees of one shape have effects of the same shapes. -/
theorem effects_of_shape (a b : Tree) (h : a.shape = b.shape) :
    a.effects.map shape = b.effects.map shape :=
  match a, b with
  | .token _, .token _ => rfl
  | .token _, .node _ _ => absurd h (by simp only [shape, reduceCtorEq, not_false_eq_true])
  | .node _ _, .token _ => absurd h (by simp only [shape, reduceCtorEq, not_false_eq_true])
  | .node kind row, .node kind' row' => by
    have hrow := h
    rw [shape, shape, Shape.node.injEq] at hrow
    rw [effects_node, effects_node, List.map_append, List.map_append,
      effectsOf_of_shapes row row' hrow.2, respects_isEffect _ _ h]
    split
    · rw [List.map_singleton, List.map_singleton, h]
    · rfl

theorem effectsOf_of_shapes (row other : List Tree) (h : shapesOf row = shapesOf other) :
    (effectsOf row).map shape = (effectsOf other).map shape :=
  match row, other with
  | [], [] => rfl
  | [], _ :: _ => absurd h (by simp only [shapesOf, reduceCtorEq, not_false_eq_true])
  | _ :: _, [] => absurd h (by simp only [shapesOf, reduceCtorEq, not_false_eq_true])
  | tree :: more, tree' :: more' => by
    rw [shapesOf, shapesOf, List.cons.injEq] at h
    rw [effectsOf, effectsOf, List.map_append, List.map_append, effects_of_shape tree tree' h.1,
      effectsOf_of_shapes more more' h.2]

end

/-- A tree that does nothing assigns nothing. -/
theorem assigned_eq_nil {tree : Tree} (h : tree.hasSideEffects = false) : tree.assigned = [] := by
  rw [assigned, List.flatMap_eq_nil_iff]
  intro sub hsub
  have hidle : sub.isEffect = false := Bool.eq_false_iff.mpr (List.any_eq_false.mp h sub hsub)
  split
  · rename_i hkind
    rw [isEffect, hkind] at hidle
    exact absurd hidle.symm Bool.false_ne_true
  · rename_i hkind
    rw [isEffect, hkind] at hidle
    exact absurd hidle.symm Bool.false_ne_true
  · rw [hidle]
    rfl
  · rfl

/-- Parentheses do and assign nothing by themselves. -/
theorem same_unwrapped (tree : Tree) (h : Grammar.Standalone tree.shape) :
    ∃ inner : Tree, inner.shape = tree.shape.unwrapped ∧ inner.effects = tree.effects ∧
      inner.assigned = tree.assigned :=
  match tree, h with
  | .token _, h => by
    rcases h.exists_node with ⟨_, _, hnode⟩
    exact absurd hnode (by simp only [shape, reduceCtorEq, not_false_eq_true])
  | .node kind children, h => by
    by_cases hparen : kind = .parenExpr
    -- The brackets neither have an effect nor assign anything.
    · subst hparen
      rcases paren_of_shape h with ⟨opening, kind, inner, closing, rfl, hinner⟩
      rcases same_unwrapped (.node kind inner) hinner with ⟨found, hshape, heffects, hassigned⟩
      refine ⟨found, hshape, heffects.trans ?_, hassigned.trans ?_⟩
      · rw [effects_node .parenExpr, effectsOf_eq_flatMap, List.flatMap_cons, List.flatMap_cons,
          List.flatMap_singleton]
        simp only [effects, List.nil_append, List.append_nil, isEffect, Tree.kind,
          Bool.false_eq_true, if_false]
      · simp only [assigned, subtrees, subtreesOf, List.nil_append, List.append_nil,
          List.flatMap_cons, Tree.kind]
    · refine ⟨.node kind children, ?_, rfl, rfl⟩
      rw [Shape.unwrapped_of_kind]
      exact hparen

end Tree

/-! ## What runs in front of a node -/

namespace Node

variable {outer node : Node} {effects : List Node}

/-- What is in a node ends no later than the node. -/
theorem bounds_of_mem (h : node ∈ outer.descendants) :
    outer.fullSpan.start ≤ node.fullSpan.start ∧ node.fullSpan.stop ≤ outer.fullSpan.stop := by
  rw [mem_descendants, ← locate_tree] at h
  exact bounds_locate outer.tree h

/-- What runs in front of a node runs in front of what is in the node. -/
theorem Split.trans {early late before behind : List Node} (h : Split effects outer early late)
    (hinner : Split outer.effects node before behind) (hmem : node ∈ outer.descendants) :
    Split effects node (early ++ before) (behind ++ late) where
  effects := by
    rw [h.effects, hinner.effects]
    simp only [List.append_assoc]
  early other hother := by
    rcases List.mem_append.mp hother with hother | hother
    · exact Nat.le_trans (h.early other hother) (bounds_of_mem hmem).1
    · exact hinner.early other hother
  late other hother := by
    rcases List.mem_append.mp hother with hother | hother
    · exact hinner.late other hother
    · exact Nat.le_trans (bounds_of_mem hmem).2 (h.late other hother)

/-- In a row nothing runs in front of the first node, since tokens run nothing. -/
theorem split_first_row {parents : List Node} {place : Place} (row : List Tree)
    (h : ((placeChildren parents place row).filterMap Element.node?).head? = some node) :
    ∃ late, Split (effectsIn parents place row) node [] late := by
  induction row generalizing place with
  | nil => exact absurd h.symm (Option.some_ne_none _)
  | cons tree more ih =>
    -- A token runs nothing and is no node.
    rcases tree with tok | ⟨kind, children⟩
    · rw [placeChildren, List.filterMap_cons_none (f := Element.node?) rfl] at h
      exact ih h
    · rw [placeChildren, List.filterMap_cons_some (f := Element.node?) rfl, List.head?_cons,
        Option.some.injEq] at h
      subst h
      refine ⟨effectsIn parents (place.after (.node kind children)) more, rfl,
        fun other hother => absurd hother List.not_mem_nil, fun other hother => ?_⟩
      have hbounds := bounds_locateAll more (mem_effectsIn more hother).1
      exact Nat.le_trans hbounds.1 (Nat.le_add_right _ _)

/-- Nothing runs in front of the first part of a node. -/
theorem split_first (h : outer.first? = some node) :
    node ∈ outer.descendants ∧ ∃ late, Split outer.effects node [] late := by
  have hmem : node ∈ outer.descendants :=
    mem_descendants_of_child (mem_descendants.mpr List.mem_cons_self)
      (mem_elements_of_childNodes (List.mem_of_getElem? h))
  have hhead : ((placeChildren outer.ancestors outer.place.inside outer.children).filterMap
      Element.node?).head? = some node := by
    rw [List.head?_eq_getElem?]
    exact h
  rcases split_first_row outer.children hhead with ⟨late, hlate⟩
  refine ⟨hmem, late ++ if outer.tree.isEffect then [outer] else [], ?_,
    fun other hother => absurd hother List.not_mem_nil, fun other hother => ?_⟩
  · have houter : outer.effects = effectsIn outer.ancestors outer.place.inside outer.children ++
        if outer.tree.isEffect then [outer] else [] := by
      rcases outer with ⟨kind, children, place, parents⟩
      rw [Node.effects, tree, effectsAt, ancestors]
    rw [houter, hlate.effects, List.append_assoc]
  -- What runs later is below the node behind it, or the outer node itself.
  · rcases List.mem_append.mp hother with hother | hother
    · exact hlate.late other hother
    · split at hother
      · rw [List.mem_singleton.mp hother]
        exact (bounds_of_mem hmem).2
      · exact absurd hother List.not_mem_nil

/-- Whether something in a node has nothing in front of it that runs. -/
def Leads (outer node : Node) : Prop :=
  node ∈ outer.descendants ∧ ∃ late, Split outer.effects node [] late

theorem Leads.trans {middle : Node} (h : outer.Leads middle) (hinner : middle.Leads node) :
    outer.Leads node := by
  rcases h with ⟨hmem, late, hlate⟩
  rcases hinner with ⟨hinner, behind, hbehind⟩
  refine ⟨?_, behind ++ late, hlate.trans hbehind hinner⟩
  rw [mem_descendants] at hmem hinner ⊢
  exact subtree_subset hmem hinner

theorem shapes_placeChildren (parents : List Node) (place : Place) (row : List Tree) :
    ((placeChildren parents place row).filterMap Element.node?).map (fun node => node.tree.shape) =
      (Tree.shapesOf row).filter Shape.isNode := by
  induction row generalizing place with
  | nil => rfl
  | cons tree more ih =>
    rcases tree with tok | ⟨kind, children⟩
    · rw [placeChildren, List.filterMap_cons_none (f := Element.node?) rfl, ih]
      rfl
    · rw [placeChildren, List.filterMap_cons_some (f := Element.node?) rfl, List.map_cons, ih]
      rfl

/-- The children of a node have the shapes that are the children of its shape. -/
theorem shapes_childNodes (node : Node) :
    node.childNodes.map (fun child => child.tree.shape) = node.tree.shape.childNodes :=
  shapes_placeChildren node.ancestors node.place.inside node.children

/-- Nothing runs in front of the first part of a node, which is told by its shape. -/
theorem leads_of_shape {shape : Shape} {more : List Shape}
    (h : outer.tree.shape.childNodes = shape :: more) :
    ∃ node, node.tree.shape = shape ∧ outer.Leads node := by
  rw [← shapes_childNodes] at h
  rcases List.map_eq_cons_iff.mp h with ⟨node, rest, hnodes, hshape, _⟩
  exact ⟨node, hshape, split_first (by rw [first?, hnodes]; rfl)⟩

/-- In a block that assigns a value to a target nothing runs in front of the target. -/
theorem leads_assignment {branch : Node} {target value : Shape} {op : Word}
    (htarget : target.isNode = true)
    (h : branch.tree.shape = Shape.assignment target op value) :
    ∃ copy, copy.tree.shape = target ∧ branch.Leads copy := by
  rcases leads_of_shape (by rw [h]; rfl) with ⟨stmt, hstmt, hfirst⟩
  rcases leads_of_shape (by rw [hstmt]; rfl) with ⟨assign, hassign, hsecond⟩
  have hchildren : assign.tree.shape.childNodes =
      target :: [value.grouped].filter Shape.isNode := by
    rw [hassign, Shape.childNodes, Shape.children, List.filter_cons_of_pos htarget]
    rfl
  rcases leads_of_shape hchildren with ⟨copy, hcopy, hthird⟩
  exact ⟨copy, hcopy, (hfirst.trans hsecond).trans hthird⟩

end Node

namespace TernaryAssignment

variable {found : TernaryAssignment}

/-- What was found is a target that does nothing by itself, at the beginning of the statement. -/
theorem target_of_locate {context : AssistContext} (h : locate context = .ok found) :
    found.target.tree.hasSideEffects = false ∧ found.stmt.Leads found.target := by
  rcases ofTernary_eq_ok (ternary_of_locate h).2.2 with
    ⟨_, _, _, _, _, _, hidle, assign, hfirst, _, _, htarget, _⟩
  have hstmt : found.stmt.Leads assign := Node.split_first hfirst
  exact ⟨hidle, hstmt.trans (Node.split_first htarget)⟩

/-- The rewrite of a conditional puts what the condition does in front of the target, where nothing
    ran before. The target does and assigns nothing, so it leaves alone what the condition reads. The
    condition does and assigns what the condition of the conditional did, and in both branches
    nothing else runs in front of the target, which reads what it read. So a variable that the target
    reads where an element or a member is computed is assigned in front of it just if the condition
    assigns it. -/
theorem target_behind_condition {text : Text} {context : AssistContext} {change : Change}
    (hclean : (Parse.file text).diagnostics = []) (hparse : context.parse = Parse.file text)
    (h : context.apply .ternaryToIfElse = .ok change) :
    ∃ found parse choice question whenTrue whenFalse, locate context = .ok found ∧
      change.edits = edits context found ∧ Parse.fragment found.replacementText = .ok parse ∧
      parse.root.childNodes = [choice] ∧ choice.childNodes = [question, whenTrue, whenFalse] ∧
      found.stmt.Leads found.target ∧ found.target.tree.effects = [] ∧
      found.target.tree.assigned = [] ∧
      question.tree.effects.map Tree.shape = found.condition.tree.effects.map Tree.shape ∧
      question.tree.assigned = found.condition.tree.assigned ∧
      ∀ branch ∈ [whenTrue, whenFalse], ∃ copy, branch.Leads copy ∧
        copy.tree.shape = found.target.tree.shape ∧ copy.tree.effects = [] ∧
        copy.tree.computedReads = found.target.tree.computedReads := by
  rcases found_of_apply hclean hparse h with ⟨found, hlocate, hedits⟩
  have hfits := fits_of_locate hclean hparse hlocate
  rw [hparse] at hfits
  rcases target_of_locate hlocate with ⟨hidle, hleads⟩
  rcases fragment_replacement hclean hfits with ⟨parse, hfragment, _, hshape⟩
  rcases List.map_eq_singleton_iff.mp hshape with ⟨choice, hchoice, hshape⟩
  have hcondition := hfits.standalone found.condition (by
    simp only [List.mem_cons, true_or, or_true])
  have hmember := hfits.members found.condition (by simp only [List.mem_cons, true_or, or_true])
  have hnode : found.condition.tree.shape.unwrapped.isNode = true := by
    rw [← (Node.unwrapped_unparenthesized hmember hcondition).2.2]
    rfl
  -- The condition that is written has three parts: the condition and two blocks.
  have hchildren := choice.shapes_childNodes
  rw [hshape, Shape.childNodes_choice hnode] at hchildren
  rcases List.map_eq_cons_iff.mp hchildren with ⟨question, rest, hrow, hquestion, hrest⟩
  rcases List.map_eq_cons_iff.mp hrest with ⟨whenTrue, rest, rfl, htrue, hrest⟩
  rcases List.map_eq_singleton_iff.mp hrest with ⟨whenFalse, rfl, hfalse⟩
  rcases Tree.same_unwrapped _ hcondition with ⟨inner, hinner, heffects, hassigned⟩
  have hsame : question.tree.shape = inner.shape := hquestion.trans hinner.symm
  -- A copy of the target is as idle as the target, and reads the same.
  have hcopy {branch copy : Node} (hcopy : copy.tree.shape = found.target.tree.shape)
      (hbranch : branch.Leads copy) : branch.Leads copy ∧
        copy.tree.shape = found.target.tree.shape ∧ copy.tree.effects = [] ∧
        copy.tree.computedReads = found.target.tree.computedReads := by
    refine ⟨hbranch, hcopy, ?_, Tree.computedReads_of_shape hcopy⟩
    rw [← List.map_eq_nil_iff, Tree.effects_of_shape _ _ hcopy, Tree.effects_eq_nil hidle,
      List.map_nil]
  refine ⟨found, parse, choice, question, whenTrue, whenFalse, hlocate, hedits, hfragment, hchoice,
    hrow, hleads, Tree.effects_eq_nil hidle, Tree.assigned_eq_nil hidle, ?_, ?_,
    fun branch hbranch => ?_⟩
  · rw [Tree.effects_of_shape _ _ hsame, heffects]
  · rw [Tree.assigned_of_shape hsame, hassigned]
  · simp only [List.mem_cons, List.not_mem_nil, or_false] at hbranch
    rcases hbranch with rfl | rfl
    · rcases Node.leads_assignment rfl htrue with ⟨copy, hshape, hleads⟩
      exact ⟨copy, hcopy hshape hleads⟩
    · -- The second block is inside of the clause for the other case.
      rcases Node.leads_of_shape (by rw [hfalse]; rfl) with ⟨block, hblock, hfirst⟩
      rcases Node.leads_assignment rfl hblock with ⟨copy, hshape, hleads⟩
      exact ⟨copy, hcopy hshape (hfirst.trans hleads)⟩

/-- A target that is computed, behind a condition that leaves alone what it reads. -/
theorem target_behind_condition_sum :
    (Parse.file "<?php $a[$i + 1] = ($j = 1) ? 2 : 3;".toList).diagnostics = [] ∧
      ∃ change found parse choice question rest,
        AssistContext.apply
          ⟨Parse.file "<?php $a[$i + 1] = ($j = 1) ? 2 : 3;".toList, 28, .default⟩
            .ternaryToIfElse = .ok change ∧
        Parse.fragment (replacementText found) = .ok parse ∧ parse.root.childNodes = [choice] ∧
        choice.childNodes = question :: rest ∧ found.target.tree.computedReads = ["i".toList] ∧
        question.tree.assigned = ["j".toList] := by
  obtain ⟨hclean, hany, hfound⟩ :
      (Parse.file "<?php $a[$i + 1] = ($j = 1) ? 2 : 3;".toList).diagnostics = [] ∧
      (AssistContext.apply
        ⟨Parse.file "<?php $a[$i + 1] = ($j = 1) ? 2 : 3;".toList, 28, .default⟩
        .ternaryToIfElse).toOption.any (fun _ => true) = true ∧
      (locate
        ⟨Parse.file "<?php $a[$i + 1] = ($j = 1) ? 2 : 3;".toList, 28, .default⟩).toOption.map
        (fun found => (found.target.tree.computedReads, found.condition.tree.assigned)) =
        some (["i".toList], ["j".toList]) := by
    decide +kernel
  rcases eq_ok_of_any hany with ⟨change, hchange, _⟩
  rcases target_behind_condition hclean rfl hchange with ⟨found, parse, choice, question, whenTrue,
    whenFalse, hlocate, _, hfragment, hchoice, hrow, _, _, _, _, hassigned, _⟩
  rw [hlocate] at hfound
  have hpair := Prod.mk.inj (Option.some.inj hfound)
  exact ⟨hclean, change, found, parse, choice, question, [whenTrue, whenFalse], hchange, hfragment,
    hchoice, hrow, hpair.1, hassigned.trans hpair.2⟩

/-- A condition that assigns what the target reads in a sum: the sum was added up before, and is
    added up behind the assignment where the condition is written in front. -/
theorem target_overtaken :
    let context : AssistContext :=
      ⟨Parse.file "<?php $a[$i + 1] = ($i = 1) ? 2 : 3;".toList, 28, .default⟩
    context.parse.diagnostics = [] ∧
      (context.apply .ternaryToIfElse).toOption = some ⟨[⟨⟨6, 30⟩,
        "if ($i = 1) \x7b $a[$i + 1] = 2; \x7d else \x7b $a[$i + 1] = 3; \x7d".toList⟩]⟩ ∧
      (locate context).toOption.map (fun found =>
        (found.target.tree.computedReads, found.condition.tree.assigned)) =
          some (["i".toList], ["i".toList]) := by
  decide +kernel

end TernaryAssignment

end PhpAssist

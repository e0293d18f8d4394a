import PhpAssist.Proofs.FormatOperands
import PhpAssist.Proofs.HoistPlaces
import PhpAssist.Proofs.Resolutions

/-!
# What runs before what

Calls, assignments and steps up or down are the effects of a statement. What is inside of one of them
runs before it, and what stands to the left runs before what stands to the right.

A rewrite moves the effects of a concatenation in front of the statement. Among each other they keep
their order, for every operand that runs something is hoisted, and what stays in the heredoc runs
nothing. They overtake the effects of the statement that end in front of the concatenation: nothing
looks for these. Where there are none, the whole statement runs in the order in which it did.

## Main definitions

* `Tree.effects`, `Node.effects`: The effects of a tree in the order in which they run.
* `Node.EndsBefore`: A node in front of another one.
* `Node.Split`: Effects in front of those of a node, and behind them.
* `Hoist.Evaluates`: A statement that evaluates an operand.

## Theorems

* `Node.split_effects`: What runs before the effects of a node ends in front of it.
* `Tree.effects_operands`: A chain runs what its operands run.
* `Resolution.runs_of_ofFrom`: Every operand with effects is evaluated by a hoist.
* `ConcatChain.effects_run_ahead`: The order of the effects of a statement behind the rewrite.
* `ConcatChain.call_overtakes`: A call that is hoisted in front of an earlier one.
-/

namespace PhpAssist

namespace Tree

mutual

/-- The effects of a tree in the order in which they run: those inside of a node first, from left to
    right, and then the node. -/
def effects : Tree → List Tree
  | .token _ => []
  | .node kind children =>
    effectsOf children ++ if isEffect (.node kind children) then [.node kind children] else []

/-- The effects of a row of trees. -/
def effectsOf : List Tree → List Tree
  | [] => []
  | tree :: more => tree.effects ++ effectsOf more

end

theorem effects_node (kind : Kind) (children : List Tree) :
    (Tree.node kind children).effects =
      effectsOf children ++ if isEffect (.node kind children) then [.node kind children] else [] :=
  rfl

theorem effectsOf_eq_flatMap (row : List Tree) : effectsOf row = row.flatMap effects := by
  induction row with
  | nil => rfl
  | cons tree row ih => rw [effectsOf, ih, List.flatMap_cons]

mutual

/-- The effects of a tree are the nodes in it that are effects. -/
theorem mem_effects {sub : Tree} (tree : Tree) :
    sub ∈ tree.effects ↔ sub ∈ tree.subtrees ∧ sub.isEffect = true :=
  match tree with
  | .token _ => ⟨fun h => absurd h List.not_mem_nil, fun h => absurd h.1 List.not_mem_nil⟩
  | .node kind children => by
    have hself : sub ∈ (if isEffect (.node kind children) then [Tree.node kind children] else []) ↔
        sub = .node kind children ∧ sub.isEffect = true := by
      by_cases heffect : isEffect (.node kind children) = true
      · rw [if_pos heffect, List.mem_singleton]
        exact ⟨fun h => ⟨h, h ▸ heffect⟩, fun h => h.1⟩
      · rw [if_neg heffect]
        exact ⟨fun h => absurd h List.not_mem_nil, fun h => absurd (h.1 ▸ h.2) heffect⟩
    -- The node itself stands first among the subtrees and last among the effects.
    rw [effects_node, subtrees, List.mem_append, mem_effectsOf children, hself, List.mem_cons]
    constructor
    · rintro (h | h)
      · exact ⟨.inr h.1, h.2⟩
      · exact ⟨.inl h.1, h.2⟩
    · rintro ⟨h | h, heffect⟩
      · exact .inr ⟨h, heffect⟩
      · exact .inl ⟨h, heffect⟩

theorem mem_effectsOf {sub : Tree} (row : List Tree) :
    sub ∈ effectsOf row ↔ sub ∈ subtreesOf row ∧ sub.isEffect = true :=
  match row with
  | [] => ⟨fun h => absurd h List.not_mem_nil, fun h => absurd h.1 List.not_mem_nil⟩
  | tree :: more => by
    rw [effectsOf, subtreesOf, List.mem_append, List.mem_append, mem_effects tree,
      mem_effectsOf more, or_and_right]

end

/-- A tree without effects. -/
theorem effects_eq_nil {tree : Tree} (h : tree.hasSideEffects = false) : tree.effects = [] := by
  refine List.eq_nil_iff_forall_not_mem.mpr fun sub hsub => ?_
  rcases (mem_effects tree).mp hsub with ⟨hmem, heffect⟩
  exact List.any_eq_false.mp h sub hmem heffect

end Tree

namespace Node

mutual

/-- The effects of a tree that begins at a place, in the order in which they run. -/
def effectsAt (parents : List Node) (place : Place) : Tree → List Node
  | .token _ => []
  | .node kind children =>
    effectsIn (⟨kind, children, place, parents⟩ :: parents) place.inside children ++
      if (Tree.node kind children).isEffect then [⟨kind, children, place, parents⟩] else []

/-- The effects of a row of trees that begins at a place. -/
def effectsIn (parents : List Node) (place : Place) : List Tree → List Node
  | [] => []
  | tree :: more => effectsAt parents place tree ++ effectsIn parents (place.after tree) more

end

/-- The effects of a node in the order in which they run. -/
def effects (node : Node) : List Node := effectsAt node.parents node.place node.tree

mutual

theorem tree_effectsAt (parents : List Node) (place : Place) (tree : Tree) :
    (effectsAt parents place tree).map Node.tree = tree.effects :=
  match tree with
  | .token _ => rfl
  | .node kind children => by
    rw [effectsAt, List.map_append, tree_effectsIn _ _ children, Tree.effects_node]
    split <;> rfl

theorem tree_effectsIn (parents : List Node) (place : Place) (row : List Tree) :
    (effectsIn parents place row).map Node.tree = Tree.effectsOf row :=
  match row with
  | [] => rfl
  | tree :: more => by
    rw [effectsIn, List.map_append, tree_effectsAt _ _ tree, tree_effectsIn _ _ more,
      Tree.effectsOf]

end

/-- The effects of a node in place are those of its tree. -/
theorem tree_effects (node : Node) : node.effects.map Node.tree = node.tree.effects :=
  tree_effectsAt node.parents node.place node.tree

/-! ## Where effects stand -/

/-- A node that ends before another one begins. -/
def EndsBefore (early late : Node) : Prop := early.fullSpan.stop ≤ late.fullSpan.start

mutual

/-- What is located in a tree begins and ends in it. -/
theorem bounds_locate {parents : List Node} {place : Place} {node : Node} (tree : Tree)
    (h : .node node ∈ locate parents place tree) :
    place.bytes ≤ node.place.bytes ∧
      node.place.bytes + node.tree.size ≤ place.bytes + tree.size :=
  match tree with
  | .token _ => absurd h (by simp only [locate, List.mem_singleton, reduceCtorEq,
      not_false_eq_true])
  | .node kind children => by
    rw [locate] at h
    rcases List.mem_cons.mp h with heq | h
    · injection heq with heq
      rw [heq]
      exact ⟨Nat.le_refl _, Nat.le_refl _⟩
    · have hsize : (Tree.node kind children).size = Text.size (Tree.fullTextOf children) := by
        rw [Tree.size, Tree.fullText_node]
      have hbounds := bounds_locateAll children h
      rw [hsize]
      exact hbounds

theorem bounds_locateAll {parents : List Node} {place : Place} {node : Node} (row : List Tree)
    (h : .node node ∈ locateAll parents place row) :
    place.bytes ≤ node.place.bytes ∧
      node.place.bytes + node.tree.size ≤ place.bytes + Text.size (Tree.fullTextOf row) :=
  match row with
  | [] => absurd h List.not_mem_nil
  | tree :: more => by
    have hafter : (place.after tree).bytes = place.bytes + tree.size := rfl
    rw [locateAll, List.mem_append] at h
    rw [Tree.fullTextOf_cons, Text.size_append, ← Tree.size]
    -- Inside the first tree, or behind it.
    rcases h with h | h
    · have hbounds := bounds_locate tree h
      omega
    · have hbounds := bounds_locateAll more h
      omega

end

mutual

/-- The effects at a place are located there. -/
theorem mem_effectsAt {parents : List Node} {place : Place} {node : Node} (tree : Tree)
    (h : node ∈ effectsAt parents place tree) :
    .node node ∈ locate parents place tree ∧ node.tree.isEffect = true :=
  match tree with
  | .token _ => absurd h List.not_mem_nil
  | .node kind children => by
    rw [effectsAt, List.mem_append] at h
    rw [locate]
    rcases h with h | h
    · rcases mem_effectsIn children h with ⟨hmem, heffect⟩
      exact ⟨List.mem_cons_of_mem _ hmem, heffect⟩
    · split at h
      · rename_i heffect
        rw [List.mem_singleton.mp h]
        exact ⟨List.mem_cons_self, heffect⟩
      · exact absurd h List.not_mem_nil

theorem mem_effectsIn {parents : List Node} {place : Place} {node : Node} (row : List Tree)
    (h : node ∈ effectsIn parents place row) :
    .node node ∈ locateAll parents place row ∧ node.tree.isEffect = true :=
  match row with
  | [] => absurd h List.not_mem_nil
  | tree :: more => by
    rw [effectsIn, List.mem_append] at h
    rw [locateAll, List.mem_append]
    rcases h with h | h
    · exact (mem_effectsAt tree h).imp_left .inl
    · exact (mem_effectsIn more h).imp_left .inr

end

theorem mem_effects {root node : Node} (h : node ∈ root.effects) :
    node ∈ root.descendants ∧ node.tree.isEffect = true := by
  rcases mem_effectsAt root.tree h with ⟨hmem, heffect⟩
  rw [locate_tree] at hmem
  exact ⟨mem_descendants.mpr hmem, heffect⟩

/-- Effects that run before those of a node, which end before it, and effects that run behind them,
    which do not end before the node does. -/
structure Split (effects : List Node) (node : Node) (early late : List Node) : Prop where
  effects : effects = early ++ node.effects ++ late
  early : ∀ other ∈ early, other.EndsBefore node
  late : ∀ other ∈ late, node.fullSpan.stop ≤ other.fullSpan.stop

mutual

/-- The effects of a tree are split by a node in it. -/
theorem split_effectsAt {parents : List Node} {place : Place} {node : Node} (tree : Tree)
    (h : .node node ∈ locate parents place tree) :
    ∃ early late, Split (effectsAt parents place tree) node early late :=
  match tree with
  | .token _ => absurd h (by simp only [locate, List.mem_singleton, reduceCtorEq,
      not_false_eq_true])
  | .node kind children => by
    have hbounds := bounds_locate (.node kind children) h
    rw [locate] at h
    rcases List.mem_cons.mp h with heq | h
    -- The node itself: all of its effects are its own.
    · injection heq with heq
      refine ⟨[], [], ⟨?_, fun other hother => absurd hother List.not_mem_nil,
        fun other hother => absurd hother List.not_mem_nil⟩⟩
      rw [List.nil_append, List.append_nil, heq]
      rfl
    · -- What is around the node runs behind its effects, and ends behind it.
      rcases split_effectsIn children h with ⟨early, late, hsplit⟩
      refine ⟨early, late ++ if (Tree.node kind children).isEffect then
        [⟨kind, children, place, parents⟩] else [], ⟨?_, hsplit.early, fun other hother => ?_⟩⟩
      · rw [effectsAt, hsplit.effects, List.append_assoc _ late]
      · rcases List.mem_append.mp hother with hother | hother
        · exact hsplit.late other hother
        · split at hother
          · rw [List.mem_singleton.mp hother]
            exact hbounds.2
          · exact absurd hother List.not_mem_nil

theorem split_effectsIn {parents : List Node} {place : Place} {node : Node} (row : List Tree)
    (h : .node node ∈ locateAll parents place row) :
    ∃ early late, Split (effectsIn parents place row) node early late :=
  match row with
  | [] => absurd h List.not_mem_nil
  | tree :: more => by
    have hafter : (place.after tree).bytes = place.bytes + tree.size := rfl
    rw [locateAll, List.mem_append] at h
    rcases h with h | h
    · -- The effects of the trees behind run behind those of the node, and end behind it.
      rcases split_effectsAt tree h with ⟨early, late, hsplit⟩
      refine ⟨early, late ++ effectsIn parents (place.after tree) more,
        ⟨?_, hsplit.early, fun other hother => ?_⟩⟩
      · rw [effectsIn, hsplit.effects, List.append_assoc _ late]
      · rcases List.mem_append.mp hother with hother | hother
        · exact hsplit.late other hother
        · have hnode := bounds_locate tree h
          have hother := bounds_locateAll more (mem_effectsIn more hother).1
          show node.place.bytes + node.tree.size ≤ other.place.bytes + other.tree.size
          omega
    -- The effects of the first tree run ahead, and end ahead of the node.
    · rcases split_effectsIn more h with ⟨early, late, hsplit⟩
      refine ⟨effectsAt parents place tree ++ early, late, ⟨?_, fun other hother => ?_, hsplit.late⟩⟩
      · rw [effectsIn, hsplit.effects]
        simp only [List.append_assoc]
      · rcases List.mem_append.mp hother with hother | hother
        · have hnode := bounds_locateAll more h
          have hother := bounds_locate tree (mem_effectsAt tree hother).1
          show other.place.bytes + other.tree.size ≤ node.place.bytes
          omega
        · exact hsplit.early other hother

end

/-- The effects of a node are split by a node in it. -/
theorem split_effects {root node : Node} (h : node ∈ root.descendants) :
    ∃ early late, Split root.effects node early late := by
  refine split_effectsAt root.tree ?_
  rw [locate_tree]
  exact mem_descendants.mp h

end Node

/-! ## The effects of operands -/

namespace Tree

/-- An operand that is made of one word runs nothing. -/
theorem effects_single {tree : Tree} (h : Grammar.Standalone tree.shape)
    (hkind : Grammar.isSingle tree.kind = true) : tree.effects = [] := by
  have heffect {kind : Kind} {children : List Tree} (hkind : Grammar.isSingle kind = true) :
      (Tree.node kind children).isEffect = false := by
    cases kind
    all_goals first | rfl | exact absurd hkind Bool.false_ne_true
  rcases single_of_shape h hkind with ⟨tok, htree, _⟩
  rw [htree, effects_node, heffect hkind]
  rfl

/-- A chain runs what its operands run. -/
theorem effects_operands (tree : Tree) (h : Grammar.Standalone tree.shape) :
    tree.operands.flatMap effects = tree.effects :=
  match tree, h with
  | .token _, h => by
    rcases h.exists_node with ⟨_, _, hnode⟩
    exact absurd hnode (by simp only [shape, reduceCtorEq, not_false_eq_true])
  | .node kind children, h => by
    -- A concatenation has no effect besides those of its two sides.
    by_cases hconcat : kind = .concatExpr
    · subst hconcat
      rcases concat_of_shape h with ⟨leftKind, left, tok, rightKind, right, rfl, hleft, hright⟩
      rw [operands_concat, List.flatMap_append, effects_operands (.node leftKind left) hleft,
        effects_operands (.node rightKind right) hright, effects_node .concatExpr]
      have hrow : effectsOf [.node leftKind left, .token tok, .node rightKind right] =
          (Tree.node leftKind left).effects ++ (Tree.node rightKind right).effects := by
        rw [effectsOf_eq_flatMap, List.flatMap_cons, List.flatMap_cons, List.flatMap_singleton]
        rfl
      rw [hrow]
      exact (List.append_nil _).symm
    -- Parentheses add none either, whether a chain is below them or one operand.
    by_cases hparen : kind = .parenExpr
    · subst hparen
      rcases paren_of_shape h with ⟨opening, kind, inner, closing, rfl, hinner⟩
      rw [operands_paren]
      by_cases hkind : kind = .concatExpr
      · rw [if_pos hkind, effects_operands (.node kind inner) hinner]
        have hrow : effectsOf [.token opening, .node kind inner, .token closing] =
            (Tree.node kind inner).effects := by
          rw [effectsOf_eq_flatMap, List.flatMap_cons, List.flatMap_cons, List.flatMap_singleton]
          exact List.append_nil _
        rw [effects_node .parenExpr, hrow]
        exact (List.append_nil _).symm
      · rw [if_neg hkind, List.flatMap_singleton]
    · rw [@operands_of_kind (.node kind children) hconcat hparen, List.flatMap_singleton]

theorem effects_passed {leaves : List Tree} (h : ∀ leaf ∈ leaves, Grammar.Standalone leaf.shape) :
    (Converter.passed leaves).flatMap effects = leaves.flatMap effects := by
  induction leaves with
  | nil => rfl
  | cons leaf leaves ih =>
    have hmore := ih fun it hit => h it (List.mem_cons_of_mem _ hit)
    rw [Converter.passed] at hmore ⊢
    rw [List.filter_cons, List.flatMap_cons]
    by_cases hkind : leaf.kind = .stringLiteral
    · rw [if_neg (by rw [hkind]; decide), hmore,
        effects_single (h leaf List.mem_cons_self) (by rw [hkind]; rfl), List.nil_append]
    · rw [if_pos (bne_iff_ne.mpr hkind), List.flatMap_cons, hmore]

end Tree

/-! ## What hoists run -/

/-- A statement that evaluates an operand: as it is, or into a variable. -/
def Hoist.Evaluates (hoist : Hoist) (operand : Tree) : Prop :=
  hoist.text = operand.trimmed ++ [';'] ∨
    ∃ name, hoist.text = '$' :: name ++ " = ".toList ++ operand.trimmed ++ [';']

/-- A piece of a heredoc that runs nothing: a variable, or an access without effects, in braces. -/
def Slot.IsIdle (slot : Slot) : Prop :=
  (∃ name, Text.isName name = true ∧ slot.text = Resolution.braced ('$' :: name)) ∨
    ∃ read : Tree, read.effects = [] ∧ slot.text = Resolution.braced read.trimmed

namespace Resolution

/-- What can be read in a string runs nothing. -/
theorem effects_read {tree : Tree} (h : Grammar.Standalone tree.shape)
    (hclass : tree.exprClass = .simpleVariable ∨ tree.exprClass = .memberOrIndexAccess) :
    tree.effects = [] := by
  unfold Tree.exprClass at hclass
  split at hclass
  case h_2 hkind => exact Tree.effects_single h (by rw [hkind]; rfl)
  case h_3 | h_4 =>
    split at hclass
    · rename_i hinterpolatable
      rw [Tree.isInterpolatable, Bool.and_eq_true, Bool.not_eq_true'] at hinterpolatable
      exact Tree.effects_eq_nil hinterpolatable.2
    · simp only [reduceCtorEq, or_self] at hclass
  all_goals simp only [reduceCtorEq, or_self] at hclass

/-- The target of an assignment that can be read in a string runs nothing. -/
theorem effects_target {tree target : Tree} (h : Grammar.Standalone tree.shape)
    (hclass : tree.exprClass = .assignment) (htarget : assignmentTarget? tree = some target) :
    target.effects = [] := by
  rcases Tree.assign_of_shape h (Tree.kind_of_assignment hclass) with
    ⟨kind, below, tok, more, rfl, hfirst, _⟩
  rw [assignmentTarget?] at htarget
  have hhead : (Tree.node .assignExpr (.node kind below :: .token tok :: more)).childNodes.head? =
      some (.node kind below) := rfl
  rw [hhead] at htarget
  dsimp only at htarget
  -- Only a variable and an access are handed out as targets, and neither runs anything.
  split at htarget
  · rename_i hread
    rw [← Option.some.inj htarget]
    exact effects_read hfirst (.inl hread)
  · rename_i hread
    rw [← Option.some.inj htarget]
    exact effects_read hfirst (.inr hread)
  · exact absurd htarget.symm (Option.some_ne_none _)

/-- Every operand with effects is evaluated by a hoist, in the order of the operands, and what is
    left in the heredoc runs nothing. -/
theorem runs_of_ofFrom {operands : List Tree} {index : Nat} {names after : Names}
    {resolution : Resolution} (h : ofFrom index operands names = .ok (resolution, after))
    (hstandalone : ∀ operand ∈ operands, Grammar.Standalone operand.shape)
    (hkind : ∀ operand ∈ operands, operand.kind ≠ .stringLiteral) :
    ∃ moved, moved.Sublist operands ∧ List.Forall₂ Hoist.Evaluates resolution.hoists moved ∧
      moved.flatMap Tree.effects = operands.flatMap Tree.effects ∧
      ∀ slot ∈ resolution.slots, slot.IsIdle := by
  induction operands generalizing index names resolution after with
  | nil =>
    have heq := Except.ok.inj h
    rw [Prod.mk.injEq] at heq
    rw [← heq.1]
    exact ⟨[], .slnil, .nil, rfl, fun slot hslot => absurd hslot List.not_mem_nil⟩
  | cons tree more ih =>
    rcases bind_eq_ok h with ⟨step, hstep, h⟩
    rcases bind_eq_ok h with ⟨⟨rest, last⟩, hrest, h⟩
    have heq := Except.ok.inj h
    rw [Prod.mk.injEq] at heq
    rw [← heq.1]
    rcases ih hrest (fun it hit => hstandalone it (List.mem_cons_of_mem _ hit))
      (fun it hit => hkind it (List.mem_cons_of_mem _ hit)) with
        ⟨moved, hsublist, hevaluates, heffects, hidle⟩
    have hself := hstandalone tree List.mem_cons_self
    have hslots (hslot : Slot.IsIdle ⟨index, step.text⟩) :
        ∀ slot ∈ (⟨index, step.text⟩ :: rest.slots : List Slot), slot.IsIdle := by
      intro slot hmem
      rcases List.mem_cons.mp hmem with rfl | hmem
      · exact hslot
      · exact hidle slot hmem
    -- An operand that is not hoisted runs nothing; any other one is evaluated by its hoist.
    have hstays (hnone : tree.effects = []) (hslot : Slot.IsIdle ⟨index, step.text⟩)
        (hhoist : step.hoist = none) :
        ∃ moved, moved.Sublist (tree :: more) ∧
          List.Forall₂ Hoist.Evaluates (step.hoist.toList ++ rest.hoists) moved ∧
          moved.flatMap Tree.effects = (tree :: more).flatMap Tree.effects ∧
          ∀ slot ∈ (⟨index, step.text⟩ :: rest.slots : List Slot), slot.IsIdle := by
      refine ⟨moved, hsublist.cons tree, ?_, ?_, hslots hslot⟩
      · rw [hhoist]
        exact hevaluates
      · rw [List.flatMap_cons, hnone, List.nil_append]
        exact heffects
    have hmoves {hoist : Hoist} (hevaluated : hoist.Evaluates tree)
        (hslot : Slot.IsIdle ⟨index, step.text⟩) (hhoist : step.hoist = some hoist) :
        ∃ moved, moved.Sublist (tree :: more) ∧
          List.Forall₂ Hoist.Evaluates (step.hoist.toList ++ rest.hoists) moved ∧
          moved.flatMap Tree.effects = (tree :: more).flatMap Tree.effects ∧
          ∀ slot ∈ (⟨index, step.text⟩ :: rest.slots : List Slot), slot.IsIdle := by
      refine ⟨tree :: moved, hsublist.cons_cons tree, ?_, ?_, hslots hslot⟩
      · rw [hhoist]
        exact .cons hevaluated hevaluates
      · rw [List.flatMap_cons, List.flatMap_cons, heffects]
    -- A literal is excluded, a plain read stays, and an assignment and any other expression move.
    rcases operand_eq_ok hstep with ⟨content, hclass, _⟩ | ⟨hclass, rfl⟩ |
      ⟨target, hclass, htarget, rfl⟩ | ⟨_, base, hbase, rfl⟩
    · exact absurd (Tree.kind_of_stringLiteral hclass) (hkind tree List.mem_cons_self)
    · have hnone := effects_read hself hclass
      exact hstays hnone (.inr ⟨tree, hnone, rfl⟩) rfl
    · exact hmoves (.inl rfl) (.inr ⟨target, effects_target hself hclass htarget, rfl⟩) rfl
    -- The base of the name begins with a letter, so what is put in place of the operand is a
    -- variable.
    · have hbases : ∀ base ∈ ["newVarPhpExpression", "newVarFnCall"],
          Text.isName base.toList = true := by
        decide
      have hname := Text.isName_append (hbases base hbase) (Text.all_ofNat (index + 1))
      exact hmoves (.inr ⟨_, rfl⟩) (.inl ⟨_, Names.isName_free names hname, rfl⟩) rfl

end Resolution

namespace ConcatChain

variable {text : Text} {context : AssistContext} {change : Change} {concat : Node}

/-- The rewrite of a concatenation without heredocs runs the effects of the concatenation in their
    order, each once, in front of all other effects of its statement. The order is the same as before
    where none of the others ends in front of the concatenation. -/
theorem effects_run_ahead (hclean : (Parse.file text).diagnostics = [])
    (hparse : context.parse = Parse.file text) (hconverter : context.config.converter = .sprintf)
    (h : context.apply .concatToHeredoc = .ok change) (hconcat : topmost? context = some concat)
    (hheredoc : ∀ leaf ∈ concat.tree.operands, leaf.kind = .stringLiteral →
      ∀ tok ∈ leaf.tokens, tok.kind ≠ .heredocString) :
    ∃ (rewrite : Rewrite context change) (early late : List Node) (moved : List Tree),
      rewrite.concat = concat ∧ Node.Split rewrite.anchor.effects concat early late ∧
      moved.Sublist concat.tree.operands ∧
      List.Forall₂ Hoist.Evaluates rewrite.resolution.hoists moved ∧
      moved.flatMap Tree.effects = concat.tree.effects ∧
      (∀ slot ∈ rewrite.resolution.slots, slot.IsIdle) ∧
      ((∀ other ∈ rewrite.anchor.descendants, other.tree.isEffect = true →
          ¬ other.EndsBefore concat) →
        rewrite.anchor.tree.effects =
          moved.flatMap Tree.effects ++ (early ++ late).map Node.tree) := by
  rcases rewrite_of_change h with ⟨rewrite⟩
  have hsame : rewrite.concat = concat := Option.some.inj (rewrite.topmost.symm.trans hconcat)
  subst hsame
  have hroot : context.parse.root.parents = [] := by rw [hparse, Parse.parents_root hclean]
  have hmember := rewrite.ancestors_subset hclean hparse List.mem_cons_self
  have hkind := rewrite.concat_of_ancestors.2
  have hstandalone : Grammar.Standalone rewrite.concat.tree.shape :=
    Parse.standalone_of_expr hclean (hparse ▸ hmember) (by rw [hkind]; rfl)
  -- The statement's effects are split by the concatenation.
  have hanchor : rewrite.concat ∈ rewrite.anchor.descendants :=
    Node.mem_descendants_of_ancestor hroot hmember (List.mem_of_find?_eq_some rewrite.anchored)
  rcases Node.split_effects hanchor with ⟨early, late, hsplit⟩
  -- What is passed to the format are the operands of the chain, and these are resolved.
  have hleaf {leaf : Tree} (hleaf : leaf ∈ rewrite.concat.tree.operands) :
      leaf.Excerpt ∧ Grammar.Standalone leaf.shape := by
    rcases leaf_of_clean hclean (hparse ▸ hmember) hkind hleaf with ⟨hexcerpt, hleaf, _⟩
    exact ⟨hexcerpt, hleaf⟩
  have hpassed {leaf : Tree} (h : leaf ∈ Converter.passed rewrite.concat.tree.operands) :
      leaf ∈ rewrite.concat.tree.operands ∧ leaf.kind ≠ .stringLiteral := by
    rcases List.mem_filter.mp h with ⟨hmem, hne⟩
    exact ⟨hmem, bne_iff_ne.mp hne⟩
  have hliteral : ∀ leaf ∈ rewrite.concat.tree.operands, leaf.kind = .stringLiteral →
      ∀ content, Literal.doubleContent leaf = .ok content → Quoted.Inside content := by
    intro leaf hmem hliteral content hcontent
    rcases Tree.literal_of_shape (hleaf hmem).2 hliteral with ⟨tok, rfl⟩
    have htok : tok ∈ (Tree.node .stringLiteral [.token tok]).tokens := List.mem_singleton_self tok
    rcases (hleaf hmem).1.lexes with ⟨_, _, hlexes⟩
    rcases hlexes.scan_of_mem htok with ⟨after, hscan⟩
    exact Literal.inside_of_scan hscan (hheredoc _ hmem hliteral tok htok) hcontent
  have hreread := Converter.passes_operands (hconverter ▸ rewrite.converted) hliteral
    (fun leaf h => (hleaf (hpassed h).1).1) (fun leaf h => (hleaf (hpassed h).1).2)
  rcases Resolution.ofFrom_of_resolve rewrite.resolved with ⟨after, hresolved⟩
  rw [Resolution.ofFrom_reread hreread fun leaf h => ⟨(hleaf (hpassed h).1).1,
    (hleaf (hpassed h).1).2, (hpassed h).2⟩] at hresolved
  rcases Resolution.runs_of_ofFrom hresolved (fun leaf h => (hleaf (hpassed h).1).2)
    (fun leaf h => (hpassed h).2) with ⟨moved, hmoved, hevaluates, heffects, hidle⟩
  rw [Tree.effects_passed fun leaf h => (hleaf h).2,
    Tree.effects_operands rewrite.concat.tree hstandalone] at heffects
  refine ⟨rewrite, early, late, moved, rfl, hsplit, hmoved.trans List.filter_sublist, hevaluates,
    heffects, hidle, fun hfirst => ?_⟩
  -- Nothing runs before the effects of the concatenation but what ends in front of it.
  have hearly : early = [] := by
    refine List.eq_nil_iff_forall_not_mem.mpr fun other hother => ?_
    have hmem : other ∈ rewrite.anchor.effects := by
      rw [hsplit.effects, List.append_assoc]
      exact List.mem_append_left _ hother
    rcases Node.mem_effects hmem with ⟨hmem, heffect⟩
    exact hfirst other hmem heffect (hsplit.early other hother)
  rw [← Node.tree_effects, hsplit.effects, hearly, heffects, List.nil_append, List.map_append,
    Node.tree_effects, List.nil_append]

/-- The call in the first argument runs first either way, the one in the second argument behind it,
    and what both are arguments of at last. -/
theorem effects_run_ahead_arguments :
    (Parse.file "<?php $x = g(\"a\" . f(), h());".toList).diagnostics = [] ∧
      ∃ change, AssistContext.apply
          ⟨Parse.file "<?php $x = g(\"a\" . f(), h());".toList, 17, .default⟩ .concatToHeredoc =
            .ok change ∧
        ∃ (rewrite : Rewrite
            ⟨Parse.file "<?php $x = g(\"a\" . f(), h());".toList, 17, .default⟩ change)
          (moved rest : List Tree),
          List.Forall₂ Hoist.Evaluates rewrite.resolution.hoists moved ∧
          rewrite.anchor.tree.effects = moved.flatMap Tree.effects ++ rest := by
  -- No literal of the chain is a heredoc, and no effect ends in front of the chain.
  obtain ⟨hclean, hany, hcheck⟩ :
      (Parse.file "<?php $x = g(\"a\" . f(), h());".toList).diagnostics = [] ∧
      (AssistContext.apply ⟨Parse.file "<?php $x = g(\"a\" . f(), h());".toList, 17,
        .default⟩ .concatToHeredoc).toOption.any (fun _ => true) = true ∧
      (topmost? ⟨Parse.file "<?php $x = g(\"a\" . f(), h());".toList, 17, .default⟩).any
        (fun concat =>
        (concat.tree.operands.all fun leaf => leaf.tokens.all fun tok =>
          tok.kind != .heredocString) &&
        concat.anchor?.all fun anchor => anchor.descendants.all fun other =>
          !other.tree.isEffect || concat.fullSpan.start < other.fullSpan.stop) = true := by
    decide +kernel
  rcases eq_ok_of_any hany with ⟨change, hchange, _⟩
  rcases (Option.any_eq_true _ _).mp hcheck with ⟨concat, hconcat, hchecked⟩
  rw [Bool.and_eq_true, List.all_eq_true] at hchecked
  have hheredoc : ∀ leaf ∈ concat.tree.operands, leaf.kind = .stringLiteral →
      ∀ tok ∈ leaf.tokens, tok.kind ≠ .heredocString := fun leaf hleaf _ tok htok =>
    bne_iff_ne.mp (List.all_eq_true.mp (hchecked.1 leaf hleaf) tok htok)
  rcases effects_run_ahead hclean rfl rfl hchange hconcat hheredoc with
    ⟨rewrite, early, late, moved, rfl, _, _, hevaluates, _, _, horder⟩
  refine ⟨hclean, change, hchange, rewrite, moved, _, hevaluates, horder ?_⟩
  intro other hother heffect hbefore
  have hall := hchecked.2
  rw [rewrite.anchored, Option.all_some, List.all_eq_true] at hall
  have hlater := hall other hother
  rw [heffect, Bool.not_true, Bool.false_or, decide_eq_true_eq] at hlater
  exact absurd hlater (Nat.not_lt_of_le hbefore)

/-- A call in the second argument is hoisted in front of the call in the first argument. -/
theorem call_overtakes :
    (Parse.file "<?php h(f(), 'a' . g());".toList).diagnostics = [] ∧
      ∃ change, AssistContext.apply
          ⟨Parse.file "<?php h(f(), 'a' . g());".toList, 17, .default⟩ .concatToHeredoc =
            .ok change ∧
        (∃ edit ∈ change.edits, edit.isInsertion = true ∧
          edit.insert = "$newVarFnCall1 = g(); ".toList) ∧
        ∃ concat anchor other,
          topmost? ⟨Parse.file "<?php h(f(), 'a' . g());".toList, 17, .default⟩ = some concat ∧
          concat.anchor? = some anchor ∧ other ∈ anchor.descendants ∧
          other.kind = .callExpr ∧ other.trimmed = "f()".toList ∧ other.EndsBefore concat := by
  obtain ⟨hclean, hany, hcheck⟩ :
      (Parse.file "<?php h(f(), 'a' . g());".toList).diagnostics = [] ∧
      (AssistContext.apply ⟨Parse.file "<?php h(f(), 'a' . g());".toList, 17,
        .default⟩ .concatToHeredoc).toOption.any (fun change => change.edits.any fun edit =>
        edit.isInsertion && edit.insert == "$newVarFnCall1 = g(); ".toList) = true ∧
      (topmost? ⟨Parse.file "<?php h(f(), 'a' . g());".toList, 17, .default⟩).any
        (fun concat => concat.anchor?.any fun anchor => anchor.descendants.any fun other =>
        other.kind == .callExpr && other.trimmed == "f()".toList &&
          decide (other.fullSpan.stop ≤ concat.fullSpan.start)) = true := by
    decide +kernel
  rcases eq_ok_of_any hany with ⟨change, hchange, hedit⟩
  rcases List.any_eq_true.mp hedit with ⟨edit, hmem, hinserts⟩
  rw [Bool.and_eq_true, beq_iff_eq] at hinserts
  rcases (Option.any_eq_true _ _).mp hcheck with ⟨concat, hconcat, hchecked⟩
  rcases (Option.any_eq_true _ _).mp hchecked with ⟨anchor, hanchor, hcalled⟩
  rcases List.any_eq_true.mp hcalled with ⟨other, hother, hcall⟩
  rw [Bool.and_eq_true, Bool.and_eq_true, beq_iff_eq, beq_iff_eq, decide_eq_true_eq] at hcall
  exact ⟨hclean, change, hchange, ⟨edit, hmem, hinserts⟩, concat, anchor, other, hconcat, hanchor,
    hother, hcall.1.1, hcall.1.2, hcall.2⟩

end ConcatChain

end PhpAssist

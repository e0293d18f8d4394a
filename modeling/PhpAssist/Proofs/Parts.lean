import PhpAssist.Assist.Context
import PhpAssist.Proofs.Excerpts
import PhpAssist.Proofs.Places

/-!
# The parts of expressions

Every expression of the grammar has the parts that its kind promises, and the parts that are
expressions stand by themselves too. What the tree calls the first or second part of a node, or the
part behind its question mark, is therefore there and is the part that was meant.

## Main definitions

* `Grammar.Parts`: What an expression consists of, by its kind.
* `Shape.unwrapped`: An expression without the parentheses around it.

## Theorems

* `Grammar.Standalone.parts`: Every expression has its parts.
* `Node.operation_of_shape`, `Node.ternary_of_shape`: The parts of a node are those of its shape.
* `Node.unwrapped_unparenthesized`: Going down through parentheses.
-/

namespace PhpAssist

namespace Grammar

/-- Whether a kind is one of expressions with an operator between operands. -/
def isOperation : Kind → Bool
  | .assignExpr | .ternaryExpr | .concatExpr | .binaryExpr => true
  | _ => false

/-- What an expression consists of. -/
inductive Parts : Shape → Prop
  | assign {op : Word} {target value : Shape} (hop : op.kind = .equals ∨ op.kind = .assignOp)
      (htarget : isAssignable target.kind = true) (hleft : Derives (.operation 0) (some op) [target])
      (hvalue : Standalone value) : Parts (.node .assignExpr [target, .word op, value])
  | short {question colon : Word} {condition value : Shape} (hquestion : question.kind = .question)
      (hcolon : colon.kind = .colon) (hcondition : Standalone condition)
      (hvalue : Standalone value) :
      Parts (.node .ternaryExpr [condition, .word question, .word colon, value])
  | ternary {question colon : Word} {condition whenTrue whenFalse : Shape}
      (hquestion : question.kind = .question) (hcolon : colon.kind = .colon)
      (hcondition : Standalone condition) (htrue : Standalone whenTrue)
      (hfalse : Standalone whenFalse) :
      Parts (.node .ternaryExpr [condition, .word question, whenTrue, .word colon, whenFalse])
  | binary {op : Word} {left right : Shape} {binding : Binding}
      (hbinding : binding? op.kind op.text = some binding) (hleft : Standalone left)
      (hright : Standalone right) : Parts (.node binding.kind [left, .word op, right])
  | paren {opening closing : Word} {inner : Shape} (hopening : opening.kind = .leftParen)
      (hclosing : closing.kind = .rightParen) (hinner : Standalone inner) :
      Parts (.node .parenExpr [.word opening, inner, .word closing])
  | other {kind : Kind} {row : List Shape} (hexpr : kind.isExpr = true)
      (hoperation : isOperation kind = false) (hparen : kind ≠ .parenExpr) : Parts (.node kind row)

theorem Derives.parts {symbol : Symbol} {look : Option Word} {row : List Shape}
    (h : Derives symbol look row) : ∀ shape, row = [shape] → symbol.isExpr = true → Parts shape := by
  induction h with
  | @token _ tok kind hkind =>
    rintro shape ⟨⟩ _
    rcases kind_of_operandKind? hkind with ⟨_, rfl⟩ | rfl | rfl | ⟨_, rfl⟩
    all_goals exact .other rfl rfl (by simp only [ne_eq, reduceCtorEq, not_false_eq_true])
  | paren hopening hclosing hinner _ =>
    rintro shape ⟨⟩ _
    exact .paren hopening hclosing (hinner.standalone rfl)
  | array | new | newWith | call | append | index | step | leading =>
    rintro shape ⟨⟩ _
    exact .other rfl rfl (by simp only [ne_eq, reduceCtorEq, not_false_eq_true])
  | @memberOf _ op _ kind _ _ hop _ _ _ =>
    rintro shape ⟨⟩ _
    rcases kind_of_accessKind? hop with ⟨_, rfl⟩ | ⟨_, rfl⟩
    all_goals exact .other rfl rfl (by simp only [ne_eq, reduceCtorEq, not_false_eq_true])
  -- A chain of productions that only passes the node on.
  | access _ ih => exact fun shape hrow _ => ih shape hrow rfl
  | operand _ _ ih => exact fun shape hrow _ => ih shape hrow rfl
  | operation _ ih => exact fun shape hrow _ => ih shape hrow rfl
  | expr _ _ ih => exact fun shape hrow _ => ih shape hrow rfl
  | assign hleft hop htarget hright _ _ =>
    rintro shape ⟨⟩ _
    exact .assign hop htarget (hleft.lower rfl (Nat.zero_le _)) (hright.standalone rfl)
  | short hleft hquestion _ hcolon hright _ _ =>
    rintro shape ⟨⟩ _
    exact .short hquestion hcolon (hleft.standalone rfl) (hright.standalone rfl)
  | ternary hleft hquestion _ hmiddle hcolon hright _ _ _ =>
    rintro shape ⟨⟩ _
    exact .ternary hquestion hcolon (hleft.standalone rfl) (hmiddle.standalone rfl)
      (hright.standalone rfl)
  | binary hleft hbinding _ hright _ _ =>
    rintro shape ⟨⟩ _
    exact .binary hbinding (hleft.standalone rfl) (hright.standalone rfl)
  | memberWord | memberVariable | memberBraces | argument | element | keyed | param |
      paramDefault | none | last | more =>
    intro _ _ hsymbol
    exact absurd hsymbol Bool.false_ne_true

/-- Every expression has the parts of its kind. -/
theorem Standalone.parts {shape : Shape} (h : Standalone shape) : Parts shape :=
  (h _ inert_none).parts shape rfl rfl

theorem kind_binding? {kind : Kind} {text : Text} {binding : Binding}
    (h : binding? kind text = some binding) :
    binding.kind = .concatExpr ∨ binding.kind = .binaryExpr := by
  rcases binding?_cases h with rfl | ⟨entry, _, _, rfl⟩
  · exact .inl rfl
  · exact .inr rfl

theorem kind_ne_of_binding? {kind other : Kind} {text : Text} {binding : Binding}
    (h : binding? kind text = some binding) (hconcat : .concatExpr ≠ other)
    (hbinary : .binaryExpr ≠ other) : binding.kind ≠ other := by
  rcases kind_binding? h with hkind | hkind
  · rwa [hkind]
  · rwa [hkind]

/-- An expression is a node of a kind of expressions. -/
theorem Standalone.isExpr {shape : Shape} (h : Standalone shape) : shape.kind.isExpr = true := by
  cases h.parts with
  | assign | short | ternary | paren => rfl
  | binary hbinding _ _ =>
    rcases kind_binding? hbinding with hkind | hkind
    all_goals
      rw [Shape.kind, hkind]
      rfl
  | other hexpr _ _ => exact hexpr

theorem Standalone.exists_node {shape : Shape} (h : Standalone shape) :
    ∃ kind row, shape = .node kind row := by
  cases h.parts <;> exact ⟨_, _, rfl⟩

end Grammar

namespace Shape

mutual

/-- An expression without the parentheses around it. -/
def unwrapped : Shape → Shape
  | .node .parenExpr children => (firstUnwrapped? children).getD (.node .parenExpr children)
  | shape => shape

/-- The first node of a row without the parentheses around it. -/
def firstUnwrapped? : List Shape → Option Shape
  | [] => none
  | .word _ :: more => firstUnwrapped? more
  | .node kind children :: _ => some (unwrapped (.node kind children))

end

theorem unwrapped_of_kind {shape : Shape} (h : shape.kind ≠ .parenExpr) :
    shape.unwrapped = shape := by
  unfold unwrapped
  split
  · exact absurd rfl h
  · rfl

end Shape

namespace Node

/-! ## Parts of a node -/

theorem shape_tree (node : Node) : node.tree.shape = .node node.kind (Tree.shapesOf node.children) :=
  rfl

theorem shapesOf_children {node : Node} {kind : Kind} {row : List Shape}
    (h : node.tree.shape = .node kind row) :
    node.kind = kind ∧ Tree.shapesOf node.children = row := by
  rw [shape_tree, Shape.node.injEq] at h
  exact h

/-- The parts of an operation: two nodes with a token between them. -/
theorem operation_of_shape {node : Node} {kind : Kind} {op : Word} {left right : Shape}
    (h : node.tree.shape = .node kind [left, .word op, right])
    (hleft : ∃ kind row, left = .node kind row) (hright : ∃ kind row, right = .node kind row) :
    ∃ first second leaf, node.childNodes = [first, second] ∧ node.childLeaves = [leaf] ∧
      first.tree.shape = left ∧ leaf.token.word = op ∧ second.tree.shape = right ∧
        .leaf leaf ∈ node.elements := by
  rcases hleft with ⟨leftKind, leftRow, rfl⟩
  rcases hright with ⟨rightKind, rightRow, rfl⟩
  rcases shapesOf_children h with ⟨_, hchildren⟩
  rcases Tree.node_of_shapesOf hchildren with ⟨below, rest, hrow, hbelow, hrest⟩
  rcases Tree.token_of_shapesOf hrest with ⟨tok, rest, rfl, htok, hrest⟩
  rcases Tree.node_of_shapesOf hrest with ⟨below', rest, rfl, hbelow', hrest⟩
  rw [Tree.shapesOf_eq_nil hrest] at hrow
  rw [childNodes, childLeaves, elements, hrow]
  exact ⟨_, _, _, rfl, rfl, congrArg (Shape.node leftKind) hbelow, htok,
    congrArg (Shape.node rightKind) hbelow', List.mem_cons_of_mem _ List.mem_cons_self⟩

/-- The parts of a conditional: three nodes with tokens between them. -/
theorem ternary_of_shape {node : Node} {kind : Kind} {question colon : Word}
    {condition whenTrue whenFalse : Shape}
    (h : node.tree.shape =
      .node kind [condition, .word question, whenTrue, .word colon, whenFalse])
    (hquestion : question.kind = .question) (hcolon : colon.kind = .colon)
    (hcondition : ∃ kind row, condition = .node kind row)
    (htrue : ∃ kind row, whenTrue = .node kind row)
    (hfalse : ∃ kind row, whenFalse = .node kind row) :
    ∃ first second third, node.childNodes = [first, second, third] ∧
      node.ternaryPart? .condition = some first ∧ node.ternaryPart? .whenTrue = some second ∧
      node.ternaryPart? .whenFalse = some third ∧ first.tree.shape = condition ∧
      second.tree.shape = whenTrue ∧ third.tree.shape = whenFalse := by
  rcases hcondition with ⟨conditionKind, conditionRow, rfl⟩
  rcases htrue with ⟨trueKind, trueRow, rfl⟩
  rcases hfalse with ⟨falseKind, falseRow, rfl⟩
  rcases shapesOf_children h with ⟨_, hchildren⟩
  rcases Tree.node_of_shapesOf hchildren with ⟨below, rest, hrow, hbelow, hrest⟩
  rcases Tree.token_of_shapesOf hrest with ⟨tok, rest, rfl, htok, hrest⟩
  rcases Tree.node_of_shapesOf hrest with ⟨below', rest, rfl, hbelow', hrest⟩
  rcases Tree.token_of_shapesOf hrest with ⟨tok', rest, rfl, htok', hrest⟩
  rcases Tree.node_of_shapesOf hrest with ⟨below'', rest, rfl, hbelow'', hrest⟩
  rw [Tree.shapesOf_eq_nil hrest] at hrow
  -- The two separators tell the parts apart.
  have hkind : tok.kind = .question := by
    rw [← hquestion, ← htok]
    rfl
  have hkind' : tok'.kind = .colon := by
    rw [← hcolon, ← htok']
    rfl
  simp only [childNodes, ternaryPart?, elements, hrow, placeChildren, TernaryPart.find?, Leaf.kind,
    hkind, hkind', TernaryPart.behind, reduceCtorEq, if_true, if_false]
  exact ⟨_, _, _, rfl, rfl, rfl, rfl, congrArg (Shape.node conditionKind) hbelow,
    congrArg (Shape.node trueKind) hbelow', congrArg (Shape.node falseKind) hbelow''⟩

/-- The tokens among the children, in place or not. -/
theorem token_childLeaves (node : Node) :
    node.childLeaves.map Leaf.token = node.tree.childTokens := by
  have hplace (parents : List Node) (place : Place) (row : List Tree) :
      ((placeChildren parents place row).filterMap Element.leaf?).map Leaf.token =
        row.filterMap Tree.token? := by
    induction row generalizing place with
    | nil => rfl
    | cons tree more ih =>
      rcases tree with tok | ⟨kind, children⟩
      · rw [placeChildren, List.filterMap_cons_some (f := Element.leaf?) rfl,
          List.filterMap_cons_some (f := Tree.token?) rfl, List.map_cons, ih]
      · rw [placeChildren, List.filterMap_cons_none (f := Element.leaf?) rfl,
          List.filterMap_cons_none (f := Tree.token?) rfl, ih]
  exact hplace node.ancestors node.place.inside node.children

/-- The short form of a conditional has no middle part. -/
theorem short_of_shape {node : Node} {kind : Kind} {question colon : Word}
    {condition value : Shape}
    (h : node.tree.shape = .node kind [condition, .word question, .word colon, value])
    (hcolon : colon.kind = .colon)
    (hcondition : ∃ kind row, condition = .node kind row)
    (hvalue : ∃ kind row, value = .node kind row) : node.ternaryPart? .whenTrue = none := by
  rcases hcondition with ⟨conditionKind, conditionRow, rfl⟩
  rcases hvalue with ⟨valueKind, valueRow, rfl⟩
  rcases shapesOf_children h with ⟨_, hchildren⟩
  rcases Tree.node_of_shapesOf hchildren with ⟨below, rest, hrow, hbelow, hrest⟩
  rcases Tree.token_of_shapesOf hrest with ⟨tok, rest, rfl, htok, hrest⟩
  rcases Tree.token_of_shapesOf hrest with ⟨tok', rest, rfl, htok', hrest⟩
  rcases Tree.node_of_shapesOf hrest with ⟨below', rest, rfl, hbelow', hrest⟩
  rw [Tree.shapesOf_eq_nil hrest] at hrow
  -- Behind the question mark the colon is next, so nothing is found in between.
  have hkind : tok'.kind = .colon := by
    rw [← hcolon, ← htok']
    rfl
  simp only [ternaryPart?, elements, hrow, placeChildren, TernaryPart.find?, Leaf.kind, hkind,
    TernaryPart.behind, reduceCtorEq, if_false]

/-- An assignment has a target and a value. -/
theorem assign_of_kind {node : Node} (h : Grammar.Standalone node.tree.shape)
    (hkind : node.kind = .assignExpr) :
    ∃ target leaf value, node.childNodes = [target, value] ∧ node.childLeaves = [leaf] ∧
      .leaf leaf ∈ node.elements ∧ (leaf.kind = .equals ∨ leaf.kind = .assignOp) ∧
      Grammar.isAssignable target.kind = true ∧
      Grammar.Derives (.operation 0) (some leaf.token.word) [target.tree.shape] ∧
      Grammar.Standalone value.tree.shape ∧ node.tree.shape =
        .node .assignExpr [target.tree.shape, .word leaf.token.word, value.tree.shape] := by
  have hshape : node.tree.shape.kind = .assignExpr := hkind
  have hparts := h.parts
  generalize hnode : node.tree.shape = shape at hparts hshape
  cases hparts with
  | short | ternary | paren => exact absurd hshape (by simp only [Shape.kind, reduceCtorEq,
      not_false_eq_true])
  | binary hbinding _ _ =>
    exact absurd hshape (Grammar.kind_ne_of_binding? hbinding (by decide) (by decide))
  | other _ hoperation _ =>
    rw [Shape.kind] at hshape
    rw [hshape] at hoperation
    exact absurd hoperation (by decide)
  | @assign op target value hop htarget hleft hvalue =>
    rcases operation_of_shape hnode (hleft.standalone rfl).exists_node hvalue.exists_node with
      ⟨first, second, leaf, hnodes, hleaves, rfl, rfl, rfl, hmem⟩
    rw [Tree.kind_shape] at htarget
    exact ⟨first, leaf, second, hnodes, hleaves, hmem, hop, htarget, hleft, hvalue, rfl⟩

/-- An operation of the table has an operator of the table. -/
theorem binary_of_kind {node : Node} (h : Grammar.Standalone node.tree.shape)
    (hkind : node.kind = .binaryExpr) :
    ∃ left op right tok, node.tree.shape = .node .binaryExpr [left, .word op, right] ∧
      node.tree.childTokens = [tok] ∧ tok.word = op ∧ op.kind = .operator := by
  have hshape : node.tree.shape.kind = .binaryExpr := hkind
  have hparts := h.parts
  generalize hnode : node.tree.shape = shape at hparts hshape
  cases hparts with
  | assign | short | ternary | paren => exact absurd hshape (by simp only [Shape.kind, reduceCtorEq,
      not_false_eq_true])
  | other _ hoperation _ =>
    rw [Shape.kind] at hshape
    rw [hshape] at hoperation
    exact absurd hoperation (by decide)
  | @binary op left right binding hbinding hleft hright =>
    rcases operation_of_shape hnode hleft.exists_node hright.exists_node with
      ⟨_, _, leaf, _, hleaves, _, hleaf, _, _⟩
    -- A dot would have made a concatenation.
    have hoperator : op.kind = .operator := by
      rcases Grammar.kind_of_binding? hbinding with hdot | hoperator
      · rw [hdot] at hbinding
        have hconcat : some ⟨25, 26, .concatExpr⟩ = some binding := hbinding
        rw [← Option.some.inj hconcat] at hshape
        exact absurd hshape (by simp only [Shape.kind, reduceCtorEq, not_false_eq_true])
      · exact hoperator
    rw [Shape.kind] at hshape
    rw [hshape]
    refine ⟨left, op, right, leaf.token, rfl, ?_, hleaf, hoperator⟩
    rw [← token_childLeaves, hleaves]
    rfl

/-- A conditional with a middle part has three parts. -/
theorem ternary_of_kind {node middle : Node} (h : Grammar.Standalone node.tree.shape)
    (hkind : node.kind = .ternaryExpr) (hmiddle : node.ternaryPart? .whenTrue = some middle) :
    ∃ condition whenTrue whenFalse question colon,
      node.childNodes = [condition, whenTrue, whenFalse] ∧
      node.ternaryPart? .condition = some condition ∧
      node.ternaryPart? .whenTrue = some whenTrue ∧
      node.ternaryPart? .whenFalse = some whenFalse ∧
      Grammar.Standalone condition.tree.shape ∧ Grammar.Standalone whenTrue.tree.shape ∧
      Grammar.Standalone whenFalse.tree.shape ∧ node.tree.shape = .node .ternaryExpr
        [condition.tree.shape, .word question, whenTrue.tree.shape, .word colon,
          whenFalse.tree.shape] := by
  have hshape : node.tree.shape.kind = .ternaryExpr := hkind
  have hparts := h.parts
  generalize hnode : node.tree.shape = shape at hparts hshape
  cases hparts with
  | assign | paren => exact absurd hshape (by simp only [Shape.kind, reduceCtorEq,
      not_false_eq_true])
  | binary hbinding _ _ =>
    exact absurd hshape (Grammar.kind_ne_of_binding? hbinding (by decide) (by decide))
  | other _ hoperation _ =>
    rw [Shape.kind] at hshape
    rw [hshape] at hoperation
    exact absurd hoperation (by decide)
  -- The short form has no middle part.
  | @short question colon condition value hquestion hcolon hcondition hvalue =>
    rw [short_of_shape hnode hcolon hcondition.exists_node hvalue.exists_node] at hmiddle
    exact absurd hmiddle (by simp only [reduceCtorEq, not_false_eq_true])
  | @ternary question colon condition whenTrue whenFalse hquestion hcolon hcondition htrue hfalse =>
    rcases ternary_of_shape hnode hquestion hcolon hcondition.exists_node htrue.exists_node
      hfalse.exists_node with
      ⟨first, second, third, hnodes, hfirst, hsecond, hthird, rfl, rfl, rfl⟩
    exact ⟨first, second, third, question, colon, hnodes, hfirst, hsecond, hthird, hcondition, htrue,
      hfalse, rfl⟩

/-- Parentheses have an expression inside. -/
theorem paren_of_kind {node : Node} (h : Grammar.Standalone node.tree.shape)
    (hkind : node.kind = .parenExpr) :
    ∃ inner, node.childNodes = [inner] ∧ node.tree.parens = inner.tree.parens + 1 ∧
      Grammar.Standalone inner.tree.shape ∧
        node.tree.shape.unwrapped = inner.tree.shape.unwrapped := by
  have hshape : node.tree.shape.kind = .parenExpr := hkind
  have hparts := h.parts
  generalize hnode : node.tree.shape = shape at hparts hshape
  cases hparts with
  | assign | short | ternary => exact absurd hshape (by simp only [Shape.kind, reduceCtorEq,
      not_false_eq_true])
  | binary hbinding _ _ =>
    exact absurd hshape (Grammar.kind_ne_of_binding? hbinding (by decide) (by decide))
  | other _ _ hparen => exact absurd hshape hparen
  | @paren opening closing inner _ _ hinner =>
    rcases hinner.exists_node with ⟨innerKind, innerRow, rfl⟩
    rcases shapesOf_children hnode with ⟨_, hchildren⟩
    rcases Tree.token_of_shapesOf hchildren with ⟨tok, rest, hrow, _, hrest⟩
    rcases Tree.node_of_shapesOf hrest with ⟨below, rest, rfl, hbelow, hrest⟩
    rcases Tree.token_of_shapesOf hrest with ⟨tok', rest, rfl, _, hrest⟩
    rw [Tree.shapesOf_eq_nil hrest] at hrow
    rw [← hbelow] at hinner ⊢
    rw [childNodes, elements, tree, hrow, hkind]
    exact ⟨_, rfl, rfl, hinner, rfl⟩

theorem parens_of_kind {tree : Tree} (h : tree.kind ≠ .parenExpr) : tree.parens = 0 := by
  unfold Tree.parens
  split
  · exact absurd rfl h
  · rfl

/-- Going down through the parentheses around an expression of a tree. -/
theorem unwrapped_unparenthesized {root node : Node} (hnode : node ∈ root.descendants)
    (h : Grammar.Standalone node.tree.shape) :
    node.unparenthesized ∈ root.descendants ∧ Grammar.Standalone node.unparenthesized.tree.shape ∧
      node.unparenthesized.tree.shape = node.tree.shape.unwrapped := by
  rw [unparenthesized]
  -- The number of parentheses around an expression goes down with each step.
  induction hparens : node.tree.parens generalizing node with
  | zero =>
    refine ⟨hnode, h, ?_⟩
    rw [descend, Shape.unwrapped_of_kind]
    intro hkind
    rcases paren_of_kind h hkind with ⟨inner, _, hcount, _, _⟩
    omega
  | succ count ih =>
    by_cases hkind : node.kind = .parenExpr
    · rcases paren_of_kind h hkind with ⟨inner, hchildren, hcount, hinner, hunwrapped⟩
      have hmem : inner ∈ root.descendants := by
        refine mem_descendants_of_child hnode (mem_elements_of_childNodes ?_)
        rw [hchildren]
        exact List.mem_singleton_self inner
      have hfirst : node.first? = some inner := by
        rw [first?, hchildren]
        rfl
      rw [descend, hfirst, hunwrapped]
      exact ih hmem hinner (by omega)
    · have hnone : node.tree.parens = 0 := parens_of_kind hkind
      rw [hnone] at hparens
      exact absurd hparens (Nat.zero_ne_add_one count)

end Node

end PhpAssist

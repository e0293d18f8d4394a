import PhpAssist.Proofs.Grammatical
import PhpAssist.Tree.View

/-!
# The parts that a clean tree names

A tree without diagnostics has the children of its kind at every node. A view of a node looks for
its parts by position or by kind, and for a tree with something missing it may find the wrong ones:
the second child of an assignment without a target is no value. In a clean tree the parts that a
view names are the children of the node, one by one and in their places, and none of them is
missing, except that a conditional in its short form has no middle part.

## Main definitions

* `Element.shape`: A child without its place.
* `View.kinds`: The kinds of nodes whose parts have names.
* `Node.Names`: A view names the children of a node, and they are what is found.

## Theorems

* `Node.shape_elements`: The children of a node in place have the shapes of its children.
* `Node.names_of_grammatical`: A node with the children of its kind has the parts that its view
  names.
* `Parse.grammatical_of_diagnostics`: Every node of a tree without diagnostics has both.
-/

namespace PhpAssist

namespace Element

/-- A child without its place. -/
def shape : Element → Shape
  | .node it => it.tree.shape
  | .leaf it => .word it.token.word

variable {elements : List Element} {row more : List Shape}

theorem leaf_of_map {it : Word} (h : elements.map shape = .word it :: more) :
    ∃ leaf rest, elements = .leaf leaf :: rest ∧ leaf.token.word = it ∧ rest.map shape = more := by
  rcases List.map_eq_cons_iff.mp h with ⟨element, rest, rfl, helement, hrest⟩
  cases element with
  | node node => exact absurd helement (by simp only [shape, Tree.shape, Node.tree, reduceCtorEq,
      not_false_eq_true])
  | leaf leaf => exact ⟨leaf, rest, rfl, Shape.word.inj helement, hrest⟩

theorem node_of_map {part : Shape} (h : elements.map shape = part :: more)
    (hpart : ∀ it, part ≠ .word it) :
    ∃ node rest, elements = .node node :: rest ∧ node.tree.shape = part ∧
      rest.map shape = more := by
  rcases List.map_eq_cons_iff.mp h with ⟨element, rest, rfl, helement, hrest⟩
  cases element with
  | node node => exact ⟨node, rest, rfl, helement, hrest⟩
  | leaf leaf => exact absurd helement.symm (hpart _)

theorem nodes_of_map (h : elements.map shape = row) (hrow : ∀ part ∈ row, ∀ it, part ≠ .word it) :
    ∃ nodes : List Node, elements = nodes.map Element.node ∧
      nodes.map (fun node => node.tree.shape) = row := by
  induction row generalizing elements with
  | nil => exact ⟨[], List.map_eq_nil_iff.mp h, rfl⟩
  | cons part row ih =>
    rcases node_of_map h (hrow part List.mem_cons_self) with ⟨node, rest, rfl, hnode, hrest⟩
    rcases ih hrest fun part hpart => hrow part (List.mem_cons_of_mem _ hpart) with
      ⟨nodes, rfl, hnodes⟩
    exact ⟨node :: nodes, rfl, by rw [List.map_cons, hnode, hnodes]⟩

end Element

/-- The kinds of nodes whose parts have names. -/
def View.kinds : List Kind :=
  [.sourceFile, .block, .exprStmt, .parenExpr, .echoStmt, .argList, .variable, .callExpr,
    .assignExpr, .binaryExpr, .concatExpr, .ternaryExpr, .stringLiteral, .memberExpr, .indexExpr]

/-- The parts of a view are the children of a node, in their places, and they are what is found when
    one looks for them. Which form the view has depends on the kind of the node. -/
inductive Node.Names (node : Node) : View → List Element → Prop
  | statements {front : List Leaf} {items : List Node} {stop : Leaf}
      (hkind : node.kind = .sourceFile ∨ node.kind = .block) (hfront : front.length ≤ 1)
      (hitems : node.statements = items) :
      Names node (.statements items)
        (front.map Element.leaf ++ items.map Element.node ++ [.leaf stop])
  | statement {inner : Node} {stop : Leaf} (hkind : node.kind = .exprStmt)
      (hinner : node.first? = some inner) :
      Names node (.expression (some inner)) [.node inner, .leaf stop]
  | parenthesized {opening closing : Leaf} {inner : Node} (hkind : node.kind = .parenExpr)
      (hinner : node.first? = some inner) :
      Names node (.expression (some inner)) [.leaf opening, .node inner, .leaf closing]
  | arguments {opening closing : Leaf} {row : List Element}
      (hkind : node.kind = .echoStmt ∨ node.kind = .argList)
      (hargs : node.childNodes = row.filterMap Element.node?) :
      Names node (.arguments (row.filterMap Element.node?))
        (.leaf opening :: (row ++ [.leaf closing]))
  | variable {name : Leaf} (hkind : node.kind = .variable)
      (hname : node.childLeaf? (· == .variableName) = some name) :
      Names node (.variable (some name)) [.leaf name]
  | call {callee list : Node} (hkind : node.kind = .callExpr)
      (hcallee : node.first? = some callee) (hlist : node.argList? = some list) :
      Names node (.call (some callee) (some list)) [.node callee, .node list]
  | assignment {target value : Node} {op : Leaf} (hkind : node.kind = .assignExpr)
      (htarget : node.first? = some target) (hop : node.assignOp? = some op)
      (hvalue : node.second? = some value) :
      Names node (.operation (some target) (some op) (some value))
        [.node target, .leaf op, .node value]
  | operation {left right : Node} {op : Leaf} (hkind : node.kind = .binaryExpr)
      (hleft : node.first? = some left) (hop : node.operator? = some op)
      (hright : node.second? = some right) :
      Names node (.operation (some left) (some op) (some right))
        [.node left, .leaf op, .node right]
  | concatenation {left right : Node} {op : Leaf} (hkind : node.kind = .concatExpr)
      (hleft : node.first? = some left) (hright : node.second? = some right) :
      Names node (.concatenation (some left) (some right)) [.node left, .leaf op, .node right]
  | short {condition whenFalse : Node} {question colon : Leaf} (hkind : node.kind = .ternaryExpr)
      (hcondition : node.ternaryPart? .condition = some condition)
      (hquestion : node.childLeaf? (· == .question) = some question)
      (htrue : node.ternaryPart? .whenTrue = none)
      (hcolon : node.childLeaf? (· == .colon) = some colon)
      (hfalse : node.ternaryPart? .whenFalse = some whenFalse) :
      Names node (.ternary (some condition) (some question) none (some colon) (some whenFalse))
        [.node condition, .leaf question, .leaf colon, .node whenFalse]
  | ternary {condition whenTrue whenFalse : Node} {question colon : Leaf}
      (hkind : node.kind = .ternaryExpr)
      (hcondition : node.ternaryPart? .condition = some condition)
      (hquestion : node.childLeaf? (· == .question) = some question)
      (htrue : node.ternaryPart? .whenTrue = some whenTrue)
      (hcolon : node.childLeaf? (· == .colon) = some colon)
      (hfalse : node.ternaryPart? .whenFalse = some whenFalse) :
      Names node
        (.ternary (some condition) (some question) (some whenTrue) (some colon) (some whenFalse))
        [.node condition, .leaf question, .node whenTrue, .leaf colon, .node whenFalse]
  | string {literal : Leaf} (hkind : node.kind = .stringLiteral)
      (hliteral : node.childLeaf? Kind.isString = some literal) :
      Names node (.string (some literal)) [.leaf literal]
  | access {base : Node} {row : List Element}
      (hkind : node.kind = .memberExpr ∨ node.kind = .indexExpr)
      (hbase : node.first? = some base) :
      Names node (.access (some base)) (.node base :: row)

namespace Node

/-- The children in place have the shapes of the children. -/
theorem shape_elements (node : Node) :
    node.elements.map Element.shape = Tree.shapesOf node.children := by
  have hplace (parents : List Node) (place : Place) (row : List Tree) :
      (placeChildren parents place row).map Element.shape = Tree.shapesOf row := by
    induction row generalizing place with
    | nil => rfl
    | cons tree row ih =>
      cases tree with
      | token tok => exact congrArg (Shape.word tok.word :: ·) (ih _)
      | node kind children =>
        exact congrArg (Shape.node kind (Tree.shapesOf children) :: ·) (ih _)
  exact hplace node.ancestors node.place.inside node.children

/-- The leaf that is looked for is the first one of the children that fits. -/
theorem childLeaf?_of_elements {node : Node} (front : List Node) {leaf : Leaf} {p : Kind → Bool}
    {rest : List Element} (h : node.elements = front.map Element.node ++ .leaf leaf :: rest)
    (hleaf : p leaf.kind = true) : node.childLeaf? p = some leaf := by
  have hfront : (front.map Element.node).filterMap Element.leaf? = [] := by
    rw [List.filterMap_map]
    exact List.filterMap_eq_nil_iff.mpr fun _ _ => rfl
  rw [childLeaf?, childLeaves, h, List.filterMap_append, hfront, List.nil_append,
    List.filterMap_cons_some (f := Element.leaf?) rfl]
  exact List.find?_cons_of_pos (p := fun leaf : Leaf => p leaf.kind) hleaf

/-- A leaf that does not fit is passed over. -/
theorem childLeaf?_of_elements_behind {node : Node} (front between : List Node)
    {other leaf : Leaf} {p : Kind → Bool} {rest : List Element}
    (h : node.elements = front.map Element.node ++
      .leaf other :: (between.map Element.node ++ .leaf leaf :: rest))
    (hother : p other.kind = false) (hleaf : p leaf.kind = true) :
    node.childLeaf? p = some leaf := by
  -- Child nodes are no leaves, so the second leaf comes right behind the first.
  have hnodes (row : List Node) : (row.map Element.node).filterMap Element.leaf? = [] := by
    rw [List.filterMap_map]
    exact List.filterMap_eq_nil_iff.mpr fun _ _ => rfl
  rw [childLeaf?, childLeaves, h, List.filterMap_append, hnodes, List.nil_append,
    List.filterMap_cons_some (f := Element.leaf?) rfl, List.filterMap_append, hnodes,
    List.nil_append, List.filterMap_cons_some (f := Element.leaf?) rfl]
  have hskip := List.find?_cons_of_neg (p := fun leaf : Leaf => p leaf.kind) (a := other)
    (l := leaf :: rest.filterMap Element.leaf?) (by rw [hother]; exact Bool.false_ne_true)
  exact hskip.trans (List.find?_cons_of_pos (p := fun leaf : Leaf => p leaf.kind) hleaf)

theorem childNodes_of_elements {node : Node} {front : List Leaf} {items : List Node} {stop : Leaf}
    (h : node.elements = front.map Element.leaf ++ items.map Element.node ++ [Element.leaf stop]) :
    node.childNodes = items := by
  have hfront : (front.map Element.leaf).filterMap Element.node? = [] := by
    rw [List.filterMap_map]
    exact List.filterMap_eq_nil_iff.mpr fun _ _ => rfl
  have hitems : (items.map Element.node).filterMap Element.node? = items := by
    rw [List.filterMap_map]
    exact List.filterMap_some
  rw [childNodes, h, List.filterMap_append, List.filterMap_append, hfront, hitems, List.nil_append,
    List.filterMap_cons_none (f := Element.node?) rfl, List.filterMap_nil, List.append_nil]

/-- The statements that a node has are all nodes below it, when they are all statements. -/
theorem names_statements {node : Node} (front : List Leaf) {row : List Shape} {stop : Word}
    {rest : List Element} (hkind : node.kind = .sourceFile ∨ node.kind = .block)
    (helements : node.elements = front.map Element.leaf ++ rest)
    (hfront : front.length ≤ 1) (hrest : rest.map Element.shape = row ++ [Shape.word stop])
    (hrow : ∀ item ∈ row, item.IsStmt) :
    node.Names (.statements node.statements) node.elements := by
  -- The elements are taken apart as the shapes are: statements, and a last token.
  rcases List.map_eq_append_iff.mp hrest with ⟨items, last, rfl, hitems, hlast⟩
  rcases Element.leaf_of_map hlast with ⟨leaf, rest, rfl, _, hnil⟩
  rcases Element.nodes_of_map hitems fun item hitem => (hrow item hitem).ne_word with
    ⟨nodes, rfl, hnodes⟩
  rw [List.map_eq_nil_iff.mp hnil, ← List.append_assoc] at helements
  have hstatements : node.statements = nodes := by
    rw [statements, childNodes_of_elements helements]
    refine List.filter_eq_self.mpr fun item hitem => hrow item.tree.shape ?_
    rw [← hnodes]
    exact List.mem_map_of_mem (f := fun node : Node => node.tree.shape) hitem
  rw [hstatements, helements]
  exact .statements hkind hfront hstatements

/-- The arguments that a node has are all nodes below it. -/
theorem names_arguments {node : Node} {opening closing : Word} {row : List Shape}
    (hkind : node.kind = .echoStmt ∨ node.kind = .argList)
    (h : node.elements.map Element.shape = .word opening :: (row ++ [Shape.word closing])) :
    node.Names (.arguments node.childNodes) node.elements := by
  rcases Element.leaf_of_map h with ⟨first, rest, helements, _, hrest⟩
  rcases List.map_eq_append_iff.mp hrest with ⟨items, rest, rfl, _, hrest⟩
  rcases Element.leaf_of_map hrest with ⟨last, rest, rfl, _, hrest⟩
  rw [List.map_eq_nil_iff.mp hrest] at helements
  -- The two tokens at the ends are no nodes.
  have hargs : node.childNodes = items.filterMap Element.node? := by
    rw [childNodes, helements, List.filterMap_cons_none (f := Element.node?) rfl,
      List.filterMap_append, List.filterMap_cons_none (f := Element.node?) rfl,
      List.filterMap_nil, List.append_nil]
  rw [hargs, helements]
  exact .arguments hkind hargs

/-- A base is the first child, whatever comes behind it. -/
theorem names_access {node : Node} {base : Shape} {row : List Shape}
    (hkind : node.kind = .memberExpr ∨ node.kind = .indexExpr)
    (h : node.elements.map Element.shape = base :: row) (hbase : base.IsExpr) :
    node.Names (.access node.first?) node.elements := by
  rcases Element.node_of_map h hbase.ne_word with ⟨first, rest, helements, _, _⟩
  have hfirst : node.first? = some first := by
    rw [first?, childNodes, helements]
    rfl
  rw [hfirst, helements]
  exact .access hkind hfirst

/-- The operands of an operation with its token. -/
theorem operation_of_elements {node : Node} {op : Word} {left right : Shape}
    (h : node.elements.map Element.shape = [left, .word op, right]) (hleft : left.IsExpr)
    (hright : right.IsExpr) :
    ∃ first leaf second, node.elements = [.node first, .leaf leaf, .node second] ∧
      leaf.token.word = op ∧ node.first? = some first ∧ node.second? = some second := by
  -- The three shapes are those of a node, a leaf and a node.
  rcases Element.node_of_map h hleft.ne_word with ⟨first, rest, helements, _, hbehind⟩
  rcases Element.leaf_of_map hbehind with ⟨leaf, rest, rfl, hop, hrest⟩
  rcases Element.node_of_map hrest hright.ne_word with ⟨second, rest, rfl, _, hnil⟩
  rw [List.map_eq_nil_iff.mp hnil] at helements
  refine ⟨first, leaf, second, helements, hop, ?_, ?_⟩
  · rw [first?, childNodes, helements]
    rfl
  · rw [second?, childNodes, helements]
    rfl

/-- A callee and the list of its arguments. -/
theorem names_call {node : Node} {callee list : Shape} (hkind : node.kind = .callExpr)
    (hrow : node.elements.map Element.shape = [callee, list]) (hcallee : callee.IsExpr)
    (hlist : list.IsNode .argList) :
    node.Names (.call node.first? node.argList?) node.elements := by
  rcases Element.node_of_map hrow hcallee.ne_word with ⟨callee, rest, helements, rfl, hrest⟩
  rcases Element.node_of_map hrest hlist.ne_word with ⟨list, rest, rfl, rfl, hnil⟩
  rw [List.map_eq_nil_iff.mp hnil] at helements
  have hlist : list.kind = .argList := hlist
  -- The callee is an expression and no list of arguments, so it is not taken for one.
  have hcallee : callee.kind ≠ .argList := by
    intro hkind
    have hexpr : callee.kind.isExpr = true := hcallee
    rw [hkind] at hexpr
    exact absurd hexpr Bool.false_ne_true
  have hnodes : node.childNodes = [callee, list] := by
    rw [childNodes, helements]
    rfl
  have hfirst : node.first? = some callee := by
    rw [first?, hnodes]
    rfl
  have hargs : node.argList? = some list := by
    simp only [argList?, hnodes, List.find?_cons, beq_eq_false_iff_ne.mpr hcallee,
      beq_iff_eq.mpr hlist]
  rw [hfirst, hargs, helements]
  exact .call hkind hfirst hargs

/-- A conditional in its short form. -/
theorem names_short {node : Node} {condition whenFalse : Shape} {question colon : Word}
    (hkind : node.kind = .ternaryExpr)
    (hrow : node.elements.map Element.shape =
      [condition, .word question, .word colon, whenFalse])
    (hcondition : condition.IsExpr) (hquestion : question.kind = .question)
    (hcolon : colon.kind = .colon) (hfalse : whenFalse.IsExpr) :
    node.Names (.ternary (node.ternaryPart? .condition) (node.childLeaf? (· == .question))
      (node.ternaryPart? .whenTrue) (node.childLeaf? (· == .colon))
      (node.ternaryPart? .whenFalse)) node.elements := by
  rcases Element.node_of_map hrow hcondition.ne_word with ⟨condition, rest, helements, _, hbehind⟩
  rcases Element.leaf_of_map hbehind with ⟨question, rest, rfl, rfl, hmore⟩
  rcases Element.leaf_of_map hmore with ⟨colon, rest, rfl, rfl, hrest⟩
  rcases Element.node_of_map hrest hfalse.ne_word with ⟨whenFalse, rest, rfl, _, hnil⟩
  rw [List.map_eq_nil_iff.mp hnil] at helements
  have hquestion : question.kind = .question := hquestion
  have hcolon : colon.kind = .colon := hcolon
  have hfirst := childLeaf?_of_elements [condition] (p := (· == .question)) helements
    (beq_iff_eq.mpr hquestion)
  have hsecond := childLeaf?_of_elements_behind [condition] [] (p := (· == .colon)) helements
    (by rw [hquestion]; rfl) (beq_iff_eq.mpr hcolon)
  -- Right behind `?` stands `:`, so no node is found between them.
  obtain ⟨hbefore, hbetween, hafter⟩ : node.ternaryPart? .condition = some condition ∧
      node.ternaryPart? .whenTrue = none ∧
      node.ternaryPart? .whenFalse = some whenFalse := by
    simp only [ternaryPart?, helements, TernaryPart.find?, hcolon, TernaryPart.behind,
      reduceCtorEq, if_true, if_false, and_self]
  rw [hbefore, hfirst, hbetween, hsecond, hafter, helements]
  exact .short hkind hbefore hfirst hbetween hsecond hafter

/-- A conditional with its three parts. -/
theorem names_ternary {node : Node} {condition whenTrue whenFalse : Shape} {question colon : Word}
    (hkind : node.kind = .ternaryExpr)
    (hrow : node.elements.map Element.shape =
      [condition, .word question, whenTrue, .word colon, whenFalse])
    (hcondition : condition.IsExpr) (hquestion : question.kind = .question)
    (htrue : whenTrue.IsExpr) (hcolon : colon.kind = .colon) (hfalse : whenFalse.IsExpr) :
    node.Names (.ternary (node.ternaryPart? .condition) (node.childLeaf? (· == .question))
      (node.ternaryPart? .whenTrue) (node.childLeaf? (· == .colon))
      (node.ternaryPart? .whenFalse)) node.elements := by
  rcases Element.node_of_map hrow hcondition.ne_word with ⟨condition, rest, helements, _, hbehind⟩
  rcases Element.leaf_of_map hbehind with ⟨question, rest, rfl, rfl, hmore⟩
  rcases Element.node_of_map hmore htrue.ne_word with ⟨whenTrue, rest, rfl, _, hrest⟩
  rcases Element.leaf_of_map hrest with ⟨colon, rest, rfl, rfl, hlast⟩
  rcases Element.node_of_map hlast hfalse.ne_word with ⟨whenFalse, rest, rfl, _, hnil⟩
  rw [List.map_eq_nil_iff.mp hnil] at helements
  have hquestion : question.kind = .question := hquestion
  have hcolon : colon.kind = .colon := hcolon
  have hfirst := childLeaf?_of_elements [condition] (p := (· == .question)) helements
    (beq_iff_eq.mpr hquestion)
  have hsecond := childLeaf?_of_elements_behind [condition] [whenTrue] (p := (· == .colon))
    helements (by rw [hquestion]; rfl) (beq_iff_eq.mpr hcolon)
  -- The tokens stand between the parts, and each part is found by the token in front of it.
  obtain ⟨hbefore, hbetween, hafter⟩ : node.ternaryPart? .condition = some condition ∧
      node.ternaryPart? .whenTrue = some whenTrue ∧
      node.ternaryPart? .whenFalse = some whenFalse := by
    simp only [ternaryPart?, helements, TernaryPart.find?, hquestion, hcolon, TernaryPart.behind,
      reduceCtorEq, if_true, if_false, and_self]
  rw [hbefore, hfirst, hbetween, hsecond, hafter, helements]
  exact .ternary hkind hbefore hfirst hbetween hsecond hafter

/-- The nodes whose parts have names have a view. -/
theorem isSome_view? {node : Node} (h : node.kind ∈ View.kinds) : node.view?.isSome = true := by
  rw [view?]
  generalize node.kind = kind at h ⊢
  simp only [View.kinds, List.mem_cons, List.not_mem_nil, or_false] at h
  rcases h with rfl | rfl | rfl | rfl | rfl | rfl | rfl | rfl | rfl | rfl | rfl | rfl | rfl | rfl |
    rfl
  all_goals rfl

/-- A node with the children of its kind has the parts that its view names. -/
theorem names_of_grammatical {node : Node} {view : View}
    (h : Grammar.Grammatical node.kind (node.elements.map Element.shape))
    (hview : node.view? = some view) : node.Names view node.elements := by
  generalize hkind : node.kind = kind at h
  generalize hrow : node.elements.map Element.shape = row at h
  rw [view?, hkind] at hview
  -- One case for each kind; a kind without named parts has no view.
  cases h with
  | operand htok =>
    rcases Element.leaf_of_map hrow with ⟨leaf, rest, helements, rfl, hrest⟩
    rw [List.map_eq_nil_iff.mp hrest] at helements
    have hleaf {p : Kind → Bool} (hp : p leaf.kind = true) : node.childLeaf? p = some leaf :=
      childLeaf?_of_elements [] helements hp
    rcases Grammar.kind_of_operandKind? htok with ⟨hname, rfl⟩ | rfl | rfl | ⟨hstring, rfl⟩
    · have hfound := hleaf (p := (· == .variableName)) (beq_iff_eq.mpr hname)
      rw [← Option.some.inj hview, hfound, helements]
      exact .variable hkind hfound
    · exact absurd hview (by simp only [reduceCtorEq, not_false_eq_true])
    · exact absurd hview (by simp only [reduceCtorEq, not_false_eq_true])
    · have hfound := hleaf hstring
      rw [← Option.some.inj hview, hfound, helements]
      exact .string hkind hfound
  | parenExpr hguard =>
    cases hguard with
    | mk _ hinner _ =>
      rcases Element.leaf_of_map hrow with ⟨opening, rest, helements, _, hbehind⟩
      rcases Element.node_of_map hbehind hinner.ne_word with ⟨inner, rest, rfl, _, hrest⟩
      rcases Element.leaf_of_map hrest with ⟨closing, rest, rfl, _, hnil⟩
      rw [List.map_eq_nil_iff.mp hnil] at helements
      have hfirst : node.first? = some inner := by
        rw [first?, childNodes, helements]
        rfl
      rw [← Option.some.inj hview, hfirst, helements]
      exact .parenthesized hkind hfirst
  | exprStmt hvalue _ =>
    rcases Element.node_of_map hrow hvalue.ne_word with ⟨inner, rest, helements, _, hrest⟩
    rcases Element.leaf_of_map hrest with ⟨stop, rest, rfl, _, hnil⟩
    rw [List.map_eq_nil_iff.mp hnil] at helements
    have hfirst : node.first? = some inner := by
      rw [first?, childNodes, helements]
      rfl
    rw [← Option.some.inj hview, hfirst, helements]
    exact .statement hkind hfirst
  | argList _ _ _ =>
    rw [← Option.some.inj hview]
    exact names_arguments (.inr hkind) hrow
  | echoStmt _ _ _ =>
    rw [← Option.some.inj hview]
    exact names_arguments (.inl hkind) hrow
  | callExpr hcallee hlist =>
    rw [← Option.some.inj hview]
    exact names_call hkind hrow hcallee hlist
  | namedMember hbase hop _ | variableMember hbase hop _ | computedMember hbase hop _ _ _ =>
    rcases Grammar.kind_of_accessKind? hop with ⟨_, rfl⟩ | ⟨_, rfl⟩
    · rw [← Option.some.inj hview]
      exact names_access (.inl hkind) hrow hbase
    · exact absurd hview (by simp only [reduceCtorEq, not_false_eq_true])
  | indexExpr hbase _ _ _ | appendExpr hbase _ _ =>
    rw [← Option.some.inj hview]
    exact names_access (.inr hkind) hrow hbase
  | assignExpr htarget _ hop hvalue =>
    rcases operation_of_elements hrow htarget hvalue with
      ⟨target, op, value, helements, rfl, hfirst, hsecond⟩
    have hop : (op.kind == .equals || op.kind == .assignOp) = true := by
      rw [Bool.or_eq_true, beq_iff_eq, beq_iff_eq]
      exact hop
    have hleaf : node.assignOp? = some op :=
      childLeaf?_of_elements [target] (p := fun kind => kind == .equals || kind == .assignOp)
        helements hop
    rw [← Option.some.inj hview, hfirst, hleaf, hsecond, helements]
    exact .assignment hkind hfirst hleaf hsecond
  | binaryExpr hleft hop _ hright =>
    rcases operation_of_elements hrow hleft hright with
      ⟨left, op, right, helements, rfl, hfirst, hsecond⟩
    have hleaf : node.operator? = some op :=
      childLeaf?_of_elements [left] (p := (· == .operator)) helements (beq_iff_eq.mpr hop)
    rw [← Option.some.inj hview, hfirst, hleaf, hsecond, helements]
    exact .operation hkind hfirst hleaf hsecond
  | concatExpr hleft _ hright =>
    rcases operation_of_elements hrow hleft hright with
      ⟨left, op, right, helements, rfl, hfirst, hsecond⟩
    rw [← Option.some.inj hview, hfirst, hsecond, helements]
    exact .concatenation hkind hfirst hsecond
  | shortTernaryExpr hcondition hquestion hcolon hfalse =>
    rw [← Option.some.inj hview]
    exact names_short hkind hrow hcondition hquestion hcolon hfalse
  | ternaryExpr hcondition hquestion htrue hcolon hfalse =>
    rw [← Option.some.inj hview]
    exact names_ternary hkind hrow hcondition hquestion htrue hcolon hfalse
  | block _ hstmts _ =>
    rcases Element.leaf_of_map hrow with ⟨opening, rest, helements, _, hrest⟩
    rw [← Option.some.inj hview]
    exact names_statements [opening] (.inr hkind) helements (Nat.le_refl 1) hrest hstmts
  | sourceFile htag hstmts _ =>
    rw [← Option.some.inj hview]
    cases htag with
    | bare => exact names_statements [] (.inl hkind) rfl (Nat.zero_le 1) hrow hstmts
    | tag _ =>
      rcases Element.leaf_of_map hrow with ⟨tag, rest, helements, _, hrest⟩
      exact names_statements [tag] (.inl hkind) helements (Nat.le_refl 1) hrest hstmts
  | jumpStmt hkeyword | valueStmt hkeyword =>
    have hmem := Grammar.mem_of_jumpKind? hkeyword
    simp only [List.mem_cons, List.not_mem_nil, or_false] at hmem
    rcases hmem with rfl | rfl | rfl
    all_goals exact absurd hview (by simp only [reduceCtorEq, not_false_eq_true])
  | _ => exact absurd hview (by simp only [reduceCtorEq, not_false_eq_true])

end Node

namespace Shape

mutual

/-- Every word of a shape is a child of one of its nodes, or the shape itself. -/
theorem mem_words {shape : Shape} {it : Word} (h : it ∈ shape.words) :
    shape = .word it ∨ ∃ node ∈ shape.nodes, .word it ∈ node.children :=
  match shape with
  | .word other => .inl (congrArg Shape.word (List.mem_singleton.mp h).symm)
  | .node kind children => by
    rcases @mem_wordsOf children it h with hmem | ⟨node, hnode, hmem⟩
    · exact .inr ⟨.node kind children, List.mem_cons_self, hmem⟩
    · exact .inr ⟨node, List.mem_cons_of_mem _ hnode, hmem⟩

theorem mem_wordsOf {row : List Shape} {it : Word} (h : it ∈ wordsOf row) :
    .word it ∈ row ∨ ∃ node ∈ nodesOf row, .word it ∈ node.children :=
  match row with
  | [] => absurd h List.not_mem_nil
  | shape :: more => by
    rw [wordsOf_cons, List.mem_append] at h
    rcases h with h | h
    · rcases mem_words h with rfl | ⟨node, hnode, hmem⟩
      · exact .inl List.mem_cons_self
      · exact .inr ⟨node, List.mem_append_left _ hnode, hmem⟩
    · rcases mem_wordsOf h with hmem | ⟨node, hnode, hmem⟩
      · exact .inl (List.mem_cons_of_mem _ hmem)
      · exact .inr ⟨node, List.mem_append_right _ hnode, hmem⟩

end

end Shape

namespace Parse

variable {text : Text}

/-- The root of a file without diagnostics has the children of a file, and everything below it comes
    from the rules. -/
theorem root_of_diagnostics (h : (file text).diagnostics = []) :
    ∃ row, (file text).root.tree.shape = .node .sourceFile row ∧
      Grammar.Grammatical .sourceFile row ∧ Shape.Each Grammar.Production row := by
  rcases clean_file_of_diagnostics h with ⟨row, hderives, hclean⟩
  rcases hclean.root with ⟨trees, htrees, _, hrow⟩
  refine ⟨row ++ [.word (Lexing.of text).last.word], ?_,
    hderives.grammatical (Lexing.kind_last text), hderives.productions.append (.word .nil)⟩
  rw [htrees, ← hrow]
  exact congrArg (Shape.node .sourceFile) (Tree.shapesOf_append _ _)

/-- Every node of a file without diagnostics has the children of its kind. -/
theorem grammatical_of_mem (h : (file text).diagnostics = []) {node : Node}
    (hnode : node ∈ (file text).root.descendants) :
    Grammar.Grammatical node.kind (node.elements.map Element.shape) := by
  rw [Node.shape_elements]
  by_cases hroot : node.tree = (file text).root.tree
  · rcases root_of_diagnostics h with ⟨row, hshape, hrow, _⟩
    rw [← hroot, Node.shape_tree, Shape.node.injEq] at hshape
    rw [hshape.1, hshape.2]
    exact hrow
  · have hproduction := production_of_mem h hnode hroot
    rw [Node.shape_tree] at hproduction
    exact hproduction.grammatical

/-- Every word of a file without diagnostics begins some token. -/
theorem known_of_mem (h : (file text).diagnostics = []) {leaf : Leaf}
    (hleaf : leaf ∈ (file text).root.leaves) : leaf.kind ≠ .unknown := by
  rcases root_of_diagnostics h with ⟨row, hshape, hrow, hbelow⟩
  -- The token is one of the words of the root's shape.
  have hwords : leaf.token.word ∈ Shape.wordsOf row := by
    have htoken := List.mem_map_of_mem (f := Leaf.token) hleaf
    rw [Node.shape_tree, Shape.node.injEq] at hshape
    rw [Node.token_leaves] at htoken
    rw [← hshape.2, Tree.wordsOf_shapesOf]
    exact List.mem_map_of_mem htoken
  -- The word is a child of the root or of a node below, and either row is grammatical.
  rcases Shape.mem_wordsOf hwords with hmem | ⟨shape, hnode, hmem⟩
  · exact hrow.known _ hmem
  · cases shape with
    | word it => exact absurd hmem List.not_mem_nil
    | node kind children => exact (hbelow _ hnode).grammatical.known _ hmem

/-- In a file without diagnostics no node is an error and none is left without a kind, no token is
    a character that begins none, and every node has the children of its kind. A node whose parts
    have names has a view, of the form of its kind, and the parts in it are the children. -/
theorem grammatical_of_diagnostics (h : (file text).diagnostics = []) :
    (∀ node ∈ (file text).root.descendants, node.kind ≠ .error ∧ node.kind ≠ .tombstone ∧
      Grammar.Grammatical node.kind (node.elements.map Element.shape) ∧
      (node.kind ∈ View.kinds → node.view?.isSome = true) ∧
      ∀ view, node.view? = some view → node.Names view node.elements) ∧
    ∀ leaf ∈ (file text).root.leaves, leaf.kind ≠ .unknown := by
  refine ⟨fun node hnode => ?_, fun leaf hleaf => known_of_mem h hleaf⟩
  have hgrammatical := grammatical_of_mem h hnode
  exact ⟨hgrammatical.kind_ne.1, hgrammatical.kind_ne.2, hgrammatical, Node.isSome_view?,
    fun view hview => Node.names_of_grammatical hgrammatical hview⟩

/-- A conditional without a middle part has its other parts, inside of a loop and of a call. -/
theorem grammatical_short_ternary :
    (file "<?php foreach ($a as $b) echo f($b ?: 'c' . 1, $d[]);".toList).diagnostics = [] ∧
      ∃ node ∈
        (file "<?php foreach ($a as $b) echo f($b ?: 'c' . 1, $d[]);".toList).root.descendants,
        node.kind = .ternaryExpr ∧
        Grammar.Grammatical node.kind (node.elements.map Element.shape) ∧
        ∃ view, node.view? = some view ∧ node.Names view node.elements := by
  obtain ⟨hclean, hternary⟩ :
      (file "<?php foreach ($a as $b) echo f($b ?: 'c' . 1, $d[]);".toList).diagnostics = [] ∧
      ((file
        "<?php foreach ($a as $b) echo f($b ?: 'c' . 1, $d[]);".toList).root.descendants.find?
        fun node => node.kind == .ternaryExpr).isSome = true := by
    decide +kernel
  rcases Option.isSome_iff_exists.mp hternary with ⟨node, hfind⟩
  have hnode := List.mem_of_find?_eq_some hfind
  have hkind : node.kind = .ternaryExpr :=
    beq_iff_eq.mp (List.find?_some (p := fun node : Node => node.kind == .ternaryExpr) hfind)
  rcases (grammatical_of_diagnostics hclean).1 node hnode with
    ⟨_, _, hgrammatical, hsome, hnames⟩
  have hview := hsome (by rw [hkind]; decide)
  rcases Option.isSome_iff_exists.mp hview with ⟨view, hview⟩
  exact ⟨hclean, node, hnode, hkind, hgrammatical, view, hview, hnames view hview⟩

end Parse

end PhpAssist

import PhpAssist.Expr.Chain
import PhpAssist.Proofs.Parts

/-!
# The operands of a chain

A chain of concatenations is a concatenation of two operands, each of which may be a chain again, in
parentheses or not. What it comes down to are operands that are expressions, and nodes below the
chain.

## Theorems

* `Tree.operands_concat`, `Tree.operands_paren`: The operands of the two nodes that are looked
  through.
* `Tree.operands_standalone`: The operands of an expression are expressions in it.
* `Tree.single_of_shape`, `Tree.literal_of_shape`: A variable, a name, a number and a string literal
  have one token.
-/

namespace PhpAssist

/-- The kinds of operands that are made of one word. -/
def Grammar.isSingle (kind : Kind) : Bool :=
  [.variable, .nameRef, .literal, .stringLiteral].contains kind

/-- Such an operand is made of one word, which tells its kind. -/
theorem Grammar.Derives.single {symbol : Symbol} {look : Option Word} {row : List Shape}
    (h : Derives symbol look row) : ∀ {single : Kind} (children : List Shape),
      row = [.node single children] → isSingle single = true → symbol.isExpr = true →
        ∃ word, children = [.word word] ∧ operandKind? word.kind = some single := by
  have hother {kind single : Kind} {children other : List Shape}
      (hrow : [Shape.node kind other] = [.node single children])
      (hsingle : isSingle single = true) (hkind : isSingle kind = false) : False := by
    simp only [List.cons.injEq, Shape.node.injEq, and_true] at hrow
    rw [← hrow.1, hkind] at hsingle
    exact Bool.false_ne_true hsingle
  induction h with
  | @token _ tok kind hkind =>
    intro single children hrow _ _
    simp only [List.cons.injEq, Shape.node.injEq, and_true] at hrow
    exact ⟨tok, hrow.2.symm, hrow.1 ▸ hkind⟩
  | access _ ih | operand _ _ ih | operation _ ih | expr _ _ ih =>
    exact fun children hrow hsingle _ => ih children hrow hsingle rfl
  | memberOf _ hop _ _ _ =>
    intro single children hrow hsingle _
    refine (hother hrow hsingle ?_).elim
    rcases Grammar.kind_of_accessKind? hop with ⟨_, rfl⟩ | ⟨_, rfl⟩ <;> rfl
  | binary _ hbinding _ _ _ _ =>
    intro single children hrow hsingle _
    refine (hother hrow hsingle ?_).elim
    rcases kind_binding? hbinding with hkind | hkind <;> rw [hkind] <;> rfl
  | paren | array | new | newWith | call | append | index | step | leading | assign | short |
      ternary =>
    exact fun children hrow hsingle _ => (hother hrow hsingle rfl).elim
  | memberWord | memberVariable | memberBraces | argument | element | keyed | param |
      paramDefault | none | last | more =>
    exact fun _ _ _ hsymbol => absurd hsymbol Bool.false_ne_true

namespace Tree

theorem operands_of_kind {tree : Tree} (hconcat : tree.kind ≠ .concatExpr)
    (hparen : tree.kind ≠ .parenExpr) : tree.operands = [tree] := by
  unfold operands
  split
  · rfl
  · exact absurd rfl hconcat
  · exact absurd rfl hparen
  · rfl

/-- The operands of a concatenation are those of its two parts. -/
theorem operands_concat {leftKind rightKind : Kind} {left right : List Tree} {tok : Token} :
    (Tree.node .concatExpr [.node leftKind left, .token tok, .node rightKind right]).operands =
      (Tree.node leftKind left).operands ++ (Tree.node rightKind right).operands := by
  have hrow : (Tree.node .concatExpr
      [.node leftKind left, .token tok, .node rightKind right]).operands =
        (Tree.node leftKind left).operands ++ ((Tree.node rightKind right).operands ++ []) := rfl
  rw [hrow, List.append_nil]

/-- Parentheses are looked through where a chain stands in them. -/
theorem operands_paren {kind : Kind} {inner : List Tree} {opening closing : Token} :
    (Tree.node .parenExpr [.token opening, .node kind inner, .token closing]).operands =
      if kind = .concatExpr then (Tree.node kind inner).operands
      else [.node .parenExpr [.token opening, .node kind inner, .token closing]] := by
  rw [operands]
  by_cases hkind : kind = .concatExpr
  · subst hkind
    rfl
  · rw [if_neg hkind, groupedOperands?, groupedOperands?, Option.getD_none]
    exact hkind

theorem subtrees_child {kind : Kind} {children : List Tree} {child sub : Tree}
    (hchild : child ∈ children) (hsub : sub ∈ child.subtrees) :
    sub ∈ (Tree.node kind children).subtrees := by
  rw [subtrees, subtreesOf_eq_flatMap]
  exact List.mem_cons_of_mem _ (List.mem_flatMap.mpr ⟨child, hchild, hsub⟩)

/-- A concatenation has two expressions for its parts. -/
theorem concat_of_shape {children : List Tree}
    (h : Grammar.Standalone (Tree.node .concatExpr children).shape) :
    ∃ leftKind left tok rightKind right,
      children = [.node leftKind left, .token tok, .node rightKind right] ∧
        Grammar.Standalone (Tree.node leftKind left).shape ∧
        Grammar.Standalone (Tree.node rightKind right).shape := by
  have hparts := h.parts
  generalize hnode : (Tree.node .concatExpr children).shape = shape at hparts
  cases hparts with
  | assign | short | ternary | paren => exact absurd hnode (by simp only [shape, Shape.node.injEq,
      reduceCtorEq, false_and, not_false_eq_true])
  | other _ hoperation _ =>
    injection hnode with hkind
    rw [← hkind] at hoperation
    exact absurd hoperation (by decide)
  -- The row says which trees the children are, one by one.
  | @binary op left right binding _ hleft hright =>
    injection hnode with _ hrow
    rcases hleft.exists_node with ⟨leftKind, leftRow, rfl⟩
    rcases hright.exists_node with ⟨rightKind, rightRow, rfl⟩
    rcases node_of_shapesOf hrow with ⟨below, rest, rfl, hbelow, hrest⟩
    rcases token_of_shapesOf hrest with ⟨tok, rest, rfl, _, hrest⟩
    rcases node_of_shapesOf hrest with ⟨below', rest, rfl, hbelow', hrest⟩
    rw [shapesOf_eq_nil hrest]
    refine ⟨leftKind, below, tok, rightKind, below', rfl, ?_, ?_⟩
    · rw [shape, hbelow]
      exact hleft
    · rw [shape, hbelow']
      exact hright

/-- Parentheses have an expression inside. -/
theorem paren_of_shape {children : List Tree}
    (h : Grammar.Standalone (Tree.node .parenExpr children).shape) :
    ∃ opening kind inner closing,
      children = [.token opening, .node kind inner, .token closing] ∧
        Grammar.Standalone (Tree.node kind inner).shape := by
  have hparts := h.parts
  generalize hnode : (Tree.node .parenExpr children).shape = shape at hparts
  cases hparts with
  | assign | short | ternary => exact absurd hnode (by simp only [shape, Shape.node.injEq,
      reduceCtorEq, false_and, not_false_eq_true])
  | other _ _ hparen =>
    injection hnode with hkind
    exact absurd hkind.symm hparen
  | binary hbinding _ _ =>
    injection hnode with hkind
    exact absurd hkind.symm (Grammar.kind_ne_of_binding? hbinding (by decide) (by decide))
  -- The same for the brackets and what is in between.
  | @paren opening closing inner _ _ hinner =>
    injection hnode with _ hrow
    rcases hinner.exists_node with ⟨kind, row, rfl⟩
    rcases token_of_shapesOf hrow with ⟨tok, rest, rfl, _, hrest⟩
    rcases node_of_shapesOf hrest with ⟨below, rest, rfl, hbelow, hrest⟩
    rcases token_of_shapesOf hrest with ⟨tok', rest, rfl, _, hrest⟩
    rw [shapesOf_eq_nil hrest]
    refine ⟨tok, kind, below, tok', rfl, ?_⟩
    rw [shape, hbelow]
    exact hinner

/-- The operands of an expression are expressions, and nodes of it. -/
theorem operands_standalone (tree : Tree) (h : Grammar.Standalone tree.shape) :
    ∀ leaf ∈ tree.operands, Grammar.Standalone leaf.shape ∧ leaf ∈ tree.subtrees :=
  match tree, h with
  | .token _, h => by
    rcases h.exists_node with ⟨_, _, hnode⟩
    exact absurd hnode (by simp only [shape, reduceCtorEq, not_false_eq_true])
  | .node kind children, h => by
    have hself : ∀ leaf ∈ [Tree.node kind children],
        Grammar.Standalone leaf.shape ∧ leaf ∈ (Tree.node kind children).subtrees := by
      intro leaf hleaf
      rw [List.mem_singleton] at hleaf
      subst hleaf
      exact ⟨h, List.mem_cons_self⟩
    -- Operands are looked for in both sides of a concatenation, and through parentheses around one.
    by_cases hconcat : kind = .concatExpr
    · subst hconcat
      rcases concat_of_shape h with ⟨leftKind, left, tok, rightKind, right, rfl, hleft, hright⟩
      intro leaf hleaf
      rw [operands_concat, List.mem_append] at hleaf
      rcases hleaf with hleaf | hleaf
      · rcases operands_standalone (.node leftKind left) hleft leaf hleaf with ⟨hleaf, hmem⟩
        exact ⟨hleaf, subtrees_child List.mem_cons_self hmem⟩
      · rcases operands_standalone (.node rightKind right) hright leaf hleaf with ⟨hleaf, hmem⟩
        exact ⟨hleaf, subtrees_child (List.mem_cons_of_mem _ (List.mem_cons_of_mem _
          List.mem_cons_self)) hmem⟩
    by_cases hparen : kind = .parenExpr
    · subst hparen
      rcases paren_of_shape h with ⟨opening, kind, inner, closing, rfl, hinner⟩
      rw [operands_paren]
      by_cases hkind : kind = .concatExpr
      · rw [if_pos hkind]
        intro leaf hleaf
        rcases operands_standalone (.node kind inner) hinner leaf hleaf with ⟨hleaf, hmem⟩
        exact ⟨hleaf, subtrees_child (List.mem_cons_of_mem _ List.mem_cons_self) hmem⟩
      · rw [if_neg hkind]
        exact hself
    · rw [@operands_of_kind (.node kind children) hconcat hparen]
      exact hself

/-- An operand that is made of one word has one token, which tells its kind. -/
theorem single_of_shape {tree : Tree} (h : Grammar.Standalone tree.shape)
    (hkind : Grammar.isSingle tree.kind = true) :
    ∃ tok, tree = .node tree.kind [.token tok] ∧
      Grammar.operandKind? tok.kind = some tree.kind := by
  rcases h.exists_node with ⟨kind, row, hshape⟩
  have hsingle : Grammar.isSingle kind = true := by
    rw [← kind_shape, hshape] at hkind
    exact hkind
  have hderives := h _ Grammar.inert_none
  rcases hderives.single row (congrArg (fun shape => [shape]) hshape) hsingle rfl with
    ⟨word, rfl, hword⟩
  -- An expression is no bare token.
  rcases tree with tok | ⟨kind, children⟩
  · exact absurd hshape (by simp only [shape, reduceCtorEq, not_false_eq_true])
  · rw [shape, Shape.node.injEq] at hshape
    rcases token_of_shapesOf hshape.2 with ⟨tok, rest, rfl, rfl, hrest⟩
    rw [shapesOf_eq_nil hrest]
    exact ⟨tok, rfl, hshape.1 ▸ hword⟩

/-- A variable has one token, which is its name. -/
theorem token_of_variable {tree : Tree} (h : Grammar.Standalone tree.shape)
    (hkind : tree.kind = .variable) :
    ∃ tok, tree = .node .variable [.token tok] ∧ tok.kind = .variableName := by
  rcases single_of_shape h (by rw [hkind]; rfl) with ⟨tok, htree, hoperand⟩
  rw [hkind] at htree hoperand
  refine ⟨tok, htree, ?_⟩
  unfold Grammar.operandKind? at hoperand
  split at hoperand
  · assumption
  all_goals exact absurd hoperand (by simp only [Option.some.injEq, reduceCtorEq,
    not_false_eq_true])

/-- A string literal has one token, which is a string. -/
theorem string_of_shape {tree : Tree} (h : Grammar.Standalone tree.shape)
    (hkind : tree.kind = .stringLiteral) :
    ∃ tok, tree = .node .stringLiteral [.token tok] ∧ tok.kind.isString = true := by
  rcases single_of_shape h (by rw [hkind]; rfl) with ⟨tok, htree, hoperand⟩
  rw [hkind] at htree hoperand
  rcases Grammar.kind_of_operandKind? hoperand with ⟨_, hother⟩ | hother | hother | ⟨hstring, _⟩
  · exact absurd hother (by decide)
  · exact absurd hother (by decide)
  · exact absurd hother (by decide)
  · exact ⟨tok, htree, hstring⟩

/-- A string literal has one token. -/
theorem literal_of_shape {tree : Tree} (h : Grammar.Standalone tree.shape)
    (hkind : tree.kind = .stringLiteral) : ∃ tok, tree = .node .stringLiteral [.token tok] :=
  (string_of_shape h hkind).imp fun _ => And.left

end Tree

end PhpAssist

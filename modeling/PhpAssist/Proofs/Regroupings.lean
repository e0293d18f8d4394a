import Mathlib.Data.List.Forall2
import PhpAssist.Proofs.Excerpts
import PhpAssist.Proofs.Grammatical
import PhpAssist.Proofs.Leaves

/-!
# Chains that are grouped in another way

Concatenation is associative, so parentheses around a part of a chain change nothing but the tree:
`'a' . ($b . $c)` and `('a' . $b) . $c` are one chain of three links. The operands of a chain are
meant to be its links, whatever the grouping.

What they are instead depends on how many parentheses stand around a part. One pair is looked
through, a second one is not: `(('a' . $b)) . $c` has the operand `(('a' . $b))`. Nothing is lost or
put out of order by this, since the operands with their dots and parentheses are still all there is.
But a chain with such an operand has fewer operands than links, so another grouping of it has other
operands.

The links are defined here by a recursion that looks through any number of parentheses. They are
the right thing to compare with, because two chains have the same links if and only if parentheses
and associativity lead from one to the other.

## Main definitions

* `Tree.isChain`, `Tree.links`: A chain in any number of parentheses, and its links.
* `Tree.IsFlat`: A chain with no chain among its operands.
* `Tree.Regrouped`: Chains that differ in the grouping only.
* `Tree.Joined`: Tokens that dots and grouping parentheses make out of operands.
* `Tree.Composed`: An expression as far as chains are concerned.

## Theorems

* `Tree.regrouped_iff`: Regrouped chains are those with the same links.
* `Tree.Composed.links_eq`: The links of a chain are the links of its operands.
* `Parse.operands_of_regrouped`: What the operands of a chain are, and which groupings have them.
* `Parse.operands_regrouped_doubled`: Two groupings of a chain with different operands.
-/

namespace PhpAssist

namespace Tree

/-! ## Links -/

/-- Whether a tree is a concatenation, in any number of parentheses or none. -/
def isChain : Tree → Bool
  | .node .concatExpr [_, .token _, _] => true
  | .node .parenExpr [.token _, inner, .token _] => isChain inner
  | _ => false

/-- The links of a chain, whatever parentheses stand around its parts. -/
def links : Tree → List Tree
  | .node .concatExpr [left, .token _, right] => links left ++ links right
  | .node .parenExpr [.token opening, inner, .token closing] =>
    if isChain inner then links inner
    else [.node .parenExpr [.token opening, inner, .token closing]]
  | tree => [tree]

/-- Whether no operand of a tree is a chain itself. -/
def IsFlat (tree : Tree) : Prop := ∀ leaf ∈ tree.operands, leaf.isChain = false

theorem links_concat (left right : Tree) (dot : Token) :
    (Tree.node .concatExpr [left, .token dot, right]).links = left.links ++ right.links := by
  rw [links]

theorem links_paren {inner : Tree} (opening closing : Token) (h : inner.isChain = true) :
    (Tree.node .parenExpr [.token opening, inner, .token closing]).links = inner.links := by
  rw [links, if_pos h]

/-- What is no chain is its own link. -/
theorem links_eq_self {tree : Tree} (h : tree.isChain = false) : tree.links = [tree] := by
  unfold links
  split
  · exact absurd h Bool.noConfusion
  · rw [if_neg]
    unfold isChain at h
    rw [h]
    exact Bool.false_ne_true
  · rfl

/-- A tree is a concatenation, a chain in parentheses, or no chain. -/
theorem chain_induction {motive : Tree → Prop}
    (concat : ∀ left dot right, motive left → motive right →
      motive (.node .concatExpr [left, .token dot, right]))
    (paren : ∀ opening inner closing, inner.isChain = true → motive inner →
      motive (.node .parenExpr [.token opening, inner, .token closing]))
    (plain : ∀ tree : Tree, tree.isChain = false → motive tree) (tree : Tree) : motive tree := by
  -- The cases are those of the recursion, with the two that stop put together.
  fun_induction links tree with
  | case1 left dot right ihleft ihright => exact concat left dot right ihleft ihright
  | case2 opening inner closing hinner ih => exact paren opening inner closing hinner ih
  | case3 opening inner closing hinner =>
    refine plain _ ?_
    rw [isChain]
    exact Bool.not_eq_true _ ▸ hinner
  | case4 tree hconcat hparen =>
    refine plain tree ?_
    unfold isChain
    split
    · exact absurd rfl (hconcat _ _ _)
    · exact absurd rfl (hparen _ _ _)
    · rfl

theorem links_ne_nil (tree : Tree) : tree.links ≠ [] := by
  induction tree using chain_induction with
  | concat left dot right ihleft _ =>
    rw [links_concat]
    exact List.append_ne_nil_of_left_ne_nil ihleft _
  | paren opening inner closing hinner ih => rwa [links_paren opening closing hinner]
  | plain tree htree =>
    rw [links_eq_self htree]
    exact List.cons_ne_nil _ _

/-- No link is a chain. -/
theorem isChain_of_mem_links (tree : Tree) : ∀ link ∈ tree.links, link.isChain = false := by
  induction tree using chain_induction with
  | concat left dot right ihleft ihright =>
    rw [links_concat, List.forall_mem_append]
    exact ⟨ihleft, ihright⟩
  | paren opening inner closing hinner ih => rwa [links_paren opening closing hinner]
  | plain tree htree =>
    rw [links_eq_self htree]
    exact List.forall_mem_singleton.mpr htree

/-- A chain has more than one link. -/
theorem two_le_links {tree : Tree} (h : tree.isChain = true) : 2 ≤ tree.links.length := by
  induction tree using chain_induction with
  | concat left dot right _ _ =>
    have hleft := List.length_pos_of_ne_nil left.links_ne_nil
    have hright := List.length_pos_of_ne_nil right.links_ne_nil
    rw [links_concat, List.length_append]
    omega
  | paren opening inner closing hinner ih =>
    rw [links_paren opening closing hinner]
    exact ih hinner
  | plain tree htree => exact absurd (htree.symm.trans h) Bool.false_ne_true

/-! ## Other groupings -/

/-- Chains that differ only in how they are grouped and in the blanks around their links. -/
inductive Regrouped : Tree → Tree → Prop
  | link {tree other : Tree} (htree : tree.isChain = false) (hother : other.isChain = false)
      (htext : tree.trimmed = other.trimmed) : Regrouped tree other
  | symm {tree other : Tree} (h : Regrouped tree other) : Regrouped other tree
  | trans {tree other last : Tree} (h : Regrouped tree other) (hlast : Regrouped other last) :
      Regrouped tree last
  | concat {left right left' right' : Tree} {dot dot' : Token} (hleft : Regrouped left left')
      (hright : Regrouped right right') :
      Regrouped (.node .concatExpr [left, .token dot, right])
        (.node .concatExpr [left', .token dot', right'])
  | group {inner : Tree} {opening closing : Token} (hinner : inner.isChain = true) :
      Regrouped (.node .parenExpr [.token opening, inner, .token closing]) inner
  | assoc {first second third : Tree} {dot dot' : Token} :
      Regrouped
        (.node .concatExpr [.node .concatExpr [first, .token dot, second], .token dot', third])
        (.node .concatExpr [first, .token dot, .node .concatExpr [second, .token dot', third]])

/-- A tree with further links behind it, grouped to the left. -/
def chained (dot : Token) (first : Tree) : List Tree → Tree
  | [] => first
  | link :: more => chained dot (.node .concatExpr [first, .token dot, link]) more

theorem chained_append (dot : Token) (first : Tree) (row more : List Tree) :
    first.chained dot (row ++ more) = (first.chained dot row).chained dot more := by
  induction row generalizing first with
  | nil => rfl
  | cons link row ih => exact ih _

namespace Regrouped

variable {tree other : Tree}

/-- Grouping does not change the links. -/
theorem links_eq (h : Regrouped tree other) :
    tree.links.map trimmed = other.links.map trimmed := by
  induction h with
  | link htree hother htext =>
    rw [links_eq_self htree, links_eq_self hother, List.map_singleton, List.map_singleton, htext]
  | symm _ ih => exact ih.symm
  | trans _ _ ih ihlast => exact ih.trans ihlast
  | concat _ _ ihleft ihright =>
    rw [links_concat, links_concat, List.map_append, List.map_append, ihleft, ihright]
  | group hinner => rw [links_paren _ _ hinner]
  | assoc => simp only [links_concat, List.append_assoc]

theorem refl (tree : Tree) : Regrouped tree tree := by
  by_cases hchain : tree.isChain = true
  · -- There and back through a pair of parentheses.
    have hgroup : Regrouped (.node .parenExpr
        [.token ⟨[], .leftParen, ['('], []⟩, tree, .token ⟨[], .rightParen, [')'], []⟩]) tree :=
      .group hchain
    exact hgroup.symm.trans hgroup
  · rw [Bool.not_eq_true] at hchain
    exact .link hchain hchain rfl

/-- Links behind regrouped trees. -/
theorem chained (dot : Token) {row others : List Tree} (h : Regrouped tree other)
    (hrow : List.Forall₂ Regrouped row others) :
    Regrouped (tree.chained dot row) (other.chained dot others) := by
  induction hrow generalizing tree other with
  | nil => exact h
  | cons hlink _ ih => exact ih (.concat h hlink)

/-- A tree in front of a row of links is the first of them. -/
theorem chained_concat (dot : Token) (first link : Tree) (more : List Tree) :
    Regrouped (.node .concatExpr [first, .token dot, link.chained dot more])
      (first.chained dot (link :: more)) := by
  induction more generalizing link with
  | nil => exact .refl _
  | cons next more ih =>
    -- What was grouped as `first . (link . next)` becomes `(first . link) . next`.
    have hassoc := (@Regrouped.assoc first link next dot dot).symm
    exact (ih _).trans (hassoc.chained dot (List.forall₂_same.mpr fun it _ => .refl it))

/-- Every tree is a regrouping of its links in a row. -/
theorem chained_links (dot : Token) (tree : Tree) : ∀ first more, tree.links = first :: more →
    Regrouped tree (first.chained dot more) := by
  -- By induction on the chain: the right half is hung below the left one, link by link.
  induction tree using chain_induction with
  | concat left leftDot right ihleft ihright =>
    intro first more hlinks
    rw [links_concat] at hlinks
    rcases hleft : left.links with _ | ⟨leftFirst, leftMore⟩
    · exact absurd hleft (links_ne_nil left)
    rcases hright : right.links with _ | ⟨rightFirst, rightMore⟩
    · exact absurd hright (links_ne_nil right)
    rw [hleft, hright, List.cons_append, List.cons.injEq] at hlinks
    rcases hlinks with ⟨rfl, rfl⟩
    rw [chained_append]
    exact (Regrouped.concat (ihleft _ _ hleft) (ihright _ _ hright)).trans
      (chained_concat dot _ _ _)
  | paren opening inner closing hinner ih =>
    intro first more hlinks
    rw [links_paren opening closing hinner] at hlinks
    exact (Regrouped.group hinner).trans (ih first more hlinks)
  | plain tree htree =>
    intro first more hlinks
    rw [links_eq_self htree, List.cons.injEq] at hlinks
    rcases hlinks with ⟨rfl, rfl⟩
    exact .refl _

/-- Rows of links with the same texts agree link by link. -/
theorem forall₂ {row others : List Tree} (hrow : ∀ link ∈ row, link.isChain = false)
    (hothers : ∀ link ∈ others, link.isChain = false)
    (h : row.map trimmed = others.map trimmed) : List.Forall₂ Regrouped row others := by
  induction row generalizing others with
  | nil =>
    rw [List.map_nil, eq_comm, List.map_eq_nil_iff] at h
    rw [h]
    exact .nil
  | cons first row ih =>
    rcases others with _ | ⟨first', others⟩
    · exact absurd h (List.cons_ne_nil _ _)
    rw [List.map_cons, List.map_cons, List.cons.injEq] at h
    rw [List.forall_mem_cons] at hrow hothers
    exact .cons (.link hrow.1 hothers.1 h.1) (ih hrow.2 hothers.2 h.2)

end Regrouped

/-- Two trees are regroupings of each other if and only if they have the same links in the same
    order. -/
theorem regrouped_iff {tree other : Tree} :
    Regrouped tree other ↔ tree.links.map trimmed = other.links.map trimmed := by
  refine ⟨Regrouped.links_eq, fun h => ?_⟩
  -- Both are regroupings of their links in a row, and the rows agree link by link.
  let dot : Token := ⟨[], .dot, ['.'], []⟩
  have hrow := Regrouped.forall₂ (isChain_of_mem_links tree) (isChain_of_mem_links other) h
  rcases htree : tree.links with _ | ⟨first, more⟩
  · exact absurd htree (links_ne_nil tree)
  rcases hother : other.links with _ | ⟨first', more'⟩
  · exact absurd hother (links_ne_nil other)
  rw [htree, hother] at hrow
  cases hrow with
  | cons hfirst hmore =>
    have hchained := Regrouped.chained dot hfirst hmore
    exact ((Regrouped.chained_links dot tree _ _ htree).trans hchained).trans
      (Regrouped.chained_links dot other _ _ hother).symm

/-! ## Operands -/

/-- How an expression is put together, as far as chains and parentheses are concerned. -/
inductive Composed : Tree → Prop
  | plain {kind : Kind} {children : List Tree} (hconcat : kind ≠ .concatExpr)
      (hparen : kind ≠ .parenExpr) : Composed (.node kind children)
  | concat {left right : Tree} {dot : Token} (hdot : dot.kind = .dot) (hleft : Composed left)
      (hright : Composed right) : Composed (.node .concatExpr [left, .token dot, right])
  | paren {inner : Tree} {opening closing : Token} (hopening : opening.kind = .leftParen)
      (hclosing : closing.kind = .rightParen) (hinner : Composed inner) :
      Composed (.node .parenExpr [.token opening, inner, .token closing])

/-- The tokens of operands in order, with dots between them and with parentheses around parts of
    more than one operand, and with nothing else. -/
inductive Joined : List Tree → List Token → Prop
  | operand (leaf : Tree) : Joined [leaf] leaf.tokens
  | concat {row more : List Tree} {tokens rest : List Token} {dot : Token} (hdot : dot.kind = .dot)
      (hrow : Joined row tokens) (hmore : Joined more rest) :
      Joined (row ++ more) (tokens ++ dot :: rest)
  | group {row : List Tree} {tokens : List Token} {opening closing : Token}
      (hopening : opening.kind = .leftParen) (hclosing : closing.kind = .rightParen)
      (hrow : Joined row tokens) (hmany : 2 ≤ row.length) :
      Joined row (opening :: (tokens ++ [closing]))

theorem dot_of_concat {leftKind rightKind : Kind} {left right : List Tree} {tok : Token}
    (h : Grammar.Standalone
      (Tree.node .concatExpr [.node leftKind left, .token tok, .node rightKind right]).shape) :
    tok.kind = .dot := by
  have hgrammatical := Grammar.Standalone.grammatical h
  simp only [shapesOf, shape] at hgrammatical
  cases hgrammatical with
  | concatExpr _ hdot _ => exact hdot
  | variableMember _ hop _ =>
    rcases Grammar.kind_of_accessKind? hop with ⟨_, hkind⟩ | ⟨_, hkind⟩
    all_goals exact Kind.noConfusion hkind

theorem parens_of_paren {opening closing : Token} {kind : Kind} {inner : List Tree}
    (h : Grammar.Standalone
      (Tree.node .parenExpr [.token opening, .node kind inner, .token closing]).shape) :
    opening.kind = .leftParen ∧ closing.kind = .rightParen := by
  have hgrammatical := Grammar.Standalone.grammatical h
  simp only [shapesOf, shape] at hgrammatical
  cases hgrammatical with
  | parenExpr hrow =>
    cases hrow with
    | mk hopening _ hclosing => exact ⟨hopening, hclosing⟩
  | valueStmt hkeyword _ _ => exact absurd (Grammar.mem_of_jumpKind? hkeyword) (by decide)

/-- An expression of the grammar is put together from two parts at every concatenation, and from one
    at every pair of parentheses. -/
theorem composed_of_standalone (tree : Tree) (h : Grammar.Standalone tree.shape) : Composed tree :=
  match tree, h with
  | .token _, h => by
    rcases h.exists_node with ⟨_, _, hnode⟩
    exact absurd hnode (by simp only [shape, reduceCtorEq, not_false_eq_true])
  | .node kind children, h => by
    -- The shape of an expression says what the children of a concatenation and of parentheses are.
    by_cases hconcat : kind = .concatExpr
    · subst hconcat
      rcases concat_of_shape h with ⟨leftKind, left, tok, rightKind, right, rfl, hleft, hright⟩
      exact .concat (dot_of_concat h) (composed_of_standalone _ hleft)
        (composed_of_standalone _ hright)
    by_cases hparen : kind = .parenExpr
    · subst hparen
      rcases paren_of_shape h with ⟨opening, kind, inner, closing, rfl, hinner⟩
      rcases parens_of_paren h with ⟨hopening, hclosing⟩
      exact .paren hopening hclosing (composed_of_standalone _ hinner)
    · exact .plain hconcat hparen

namespace Composed

variable {tree : Tree} {kind : Kind} {children : List Tree}

theorem operands_plain (hconcat : kind ≠ .concatExpr) (hparen : kind ≠ .parenExpr) :
    (Tree.node kind children).operands = [.node kind children] :=
  @operands_of_kind (.node kind children) hconcat hparen

theorem isChain_plain (hconcat : kind ≠ .concatExpr) (hparen : kind ≠ .parenExpr) :
    (Tree.node kind children).isChain = false := by
  unfold isChain
  split
  · rename_i heq
    exact absurd (congrArg Tree.kind heq) hconcat
  · rename_i heq
    exact absurd (congrArg Tree.kind heq) hparen
  · rfl

theorem exists_node (h : Composed tree) : ∃ kind children, tree = .node kind children := by
  cases h with
  | plain | concat | paren => exact ⟨_, _, rfl⟩

/-- The operands of a concatenation are those of its parts. -/
theorem operands_concat {left right : Tree} (dot : Token) (hleft : Composed left)
    (hright : Composed right) :
    (Tree.node .concatExpr [left, .token dot, right]).operands =
      left.operands ++ right.operands := by
  rcases hleft.exists_node with ⟨leftKind, leftChildren, rfl⟩
  rcases hright.exists_node with ⟨rightKind, rightChildren, rfl⟩
  exact Tree.operands_concat

/-- One pair of parentheses is looked through, if a concatenation stands directly in it. -/
theorem operands_paren {inner : Tree} (opening closing : Token) (hinner : Composed inner) :
    (Tree.node .parenExpr [.token opening, inner, .token closing]).operands =
      if inner.kind = .concatExpr then inner.operands
      else [.node .parenExpr [.token opening, inner, .token closing]] := by
  rcases hinner.exists_node with ⟨kind, children, rfl⟩
  exact Tree.operands_paren

theorem isChain_of_kind (h : Composed tree) (hkind : tree.kind = .concatExpr) :
    tree.isChain = true := by
  cases h with
  | plain hconcat _ => exact absurd hkind hconcat
  | concat => rfl
  | paren => exact Kind.noConfusion hkind

theorem operands_ne_nil (h : Composed tree) : tree.operands ≠ [] := by
  induction h with
  | plain hconcat hparen =>
    rw [operands_plain hconcat hparen]
    exact List.cons_ne_nil _ _
  | concat _ hleft hright ihleft _ =>
    rw [operands_concat _ hleft hright]
    exact List.append_ne_nil_of_left_ne_nil ihleft _
  | paren _ _ hinner ih =>
    rw [operands_paren _ _ hinner]
    split
    · exact ih
    · exact List.cons_ne_nil _ _

theorem two_le_operands (h : Composed tree) (hkind : tree.kind = .concatExpr) :
    2 ≤ tree.operands.length := by
  cases h with
  | plain hconcat _ => exact absurd hkind hconcat
  | paren => exact Kind.noConfusion hkind
  | concat _ hleft hright =>
    have hpos := List.length_pos_of_ne_nil hleft.operands_ne_nil
    have hpos' := List.length_pos_of_ne_nil hright.operands_ne_nil
    rw [operands_concat _ hleft hright, List.length_append]
    omega

/-- The tokens of an expression are those of its operands, with dots and with parentheses around
    parts of the chain. -/
theorem joined (h : Composed tree) : Joined tree.operands tree.tokens := by
  -- By induction on the composition, with the tokens put together as the operands are.
  induction h with
  | plain hconcat hparen =>
    rw [operands_plain hconcat hparen]
    exact .operand _
  | @concat left right dot hdot hleft hright ihleft ihright =>
    have htokens : (Tree.node .concatExpr [left, .token dot, right]).tokens =
        left.tokens ++ dot :: right.tokens := by
      simp only [tokens, tokensOf, List.append_nil, List.singleton_append]
    rw [operands_concat _ hleft hright, htokens]
    exact .concat hdot ihleft ihright
  | @paren inner opening closing hopening hclosing hinner ih =>
    rw [operands_paren _ _ hinner]
    by_cases hkind : inner.kind = .concatExpr
    · have htokens : (Tree.node .parenExpr [.token opening, inner, .token closing]).tokens =
          opening :: (inner.tokens ++ [closing]) := by
        simp only [tokens, tokensOf, List.append_nil, List.singleton_append]
      rw [if_pos hkind, htokens]
      exact .group hopening hclosing ih (hinner.two_le_operands hkind)
    · rw [if_neg hkind]
      exact .operand _

/-- No operand is a concatenation, and one that is a chain in parentheses has more than one pair. -/
theorem parens_of_mem_operands (h : Composed tree) : ∀ leaf ∈ tree.operands,
    leaf.kind ≠ .concatExpr ∧ (leaf.isChain = true → 2 ≤ leaf.parens) := by
  induction h with
  | plain hconcat hparen =>
    intro leaf hleaf
    rw [operands_plain hconcat hparen, List.mem_singleton] at hleaf
    rw [hleaf, isChain_plain hconcat hparen]
    exact ⟨hconcat, Bool.noConfusion⟩
  | concat _ hleft hright ihleft ihright =>
    intro leaf hleaf
    rw [operands_concat _ hleft hright, List.mem_append] at hleaf
    rcases hleaf with hleaf | hleaf
    · exact ihleft leaf hleaf
    · exact ihright leaf hleaf
  | @paren inner opening closing _ _ hinner ih =>
    intro leaf hleaf
    rw [operands_paren _ _ hinner] at hleaf
    by_cases hkind : inner.kind = .concatExpr
    · rw [if_pos hkind] at hleaf
      exact ih leaf hleaf
    · rw [if_neg hkind, List.mem_singleton] at hleaf
      rw [hleaf]
      refine ⟨Kind.noConfusion, fun hchain => ?_⟩
      -- The chain does not stand directly in the parentheses, so there are others around it.
      cases hinner with
      | concat => exact absurd rfl hkind
      | plain hconcat hparen =>
        rw [isChain, isChain_plain hconcat hparen] at hchain
        exact absurd hchain Bool.false_ne_true
      | paren _ _ hinner =>
        rcases hinner.exists_node with ⟨kind, children, rfl⟩
        rw [parens, parensOf, parensOf, parens, parensOf, parensOf]
        omega

/-- The links of an expression are the links of its operands. -/
theorem links_eq (h : Composed tree) : tree.links = tree.operands.flatMap links := by
  induction h with
  | plain hconcat hparen =>
    rw [operands_plain hconcat hparen, List.flatMap_singleton]
  | concat _ hleft hright ihleft ihright =>
    rw [links_concat, operands_concat _ hleft hright, List.flatMap_append, ihleft, ihright]
  | @paren inner opening closing _ _ hinner ih =>
    rw [operands_paren _ _ hinner]
    by_cases hkind : inner.kind = .concatExpr
    · rw [if_pos hkind, links_paren _ _ (hinner.isChain_of_kind hkind), ih]
    · rw [if_neg hkind, List.flatMap_singleton]

end Composed

/-- A row has no more trees than links, and as many if and only if no tree is a chain. -/
theorem length_flatMap_links (row : List Tree) :
    row.length ≤ (row.flatMap links).length ∧
      ((row.flatMap links).length = row.length ↔ ∀ leaf ∈ row, leaf.isChain = false) := by
  induction row with
  | nil => exact ⟨Nat.le_refl _, fun _ _ hleaf => absurd hleaf List.not_mem_nil, fun _ => rfl⟩
  | cons leaf row ih =>
    rcases ih with ⟨hle, hiff⟩
    rw [List.forall_mem_cons, ← hiff, List.flatMap_cons, List.length_append, List.length_cons]
    by_cases hchain : leaf.isChain = true
    · have htwo := two_le_links hchain
      rw [hchain]
      refine ⟨by omega, fun heq => by omega, fun heq => Bool.noConfusion heq.1⟩
    · rw [Bool.not_eq_true] at hchain
      rw [links_eq_self hchain, hchain, List.length_singleton]
      exact ⟨by omega, fun heq => ⟨rfl, by omega⟩, fun heq => by omega⟩

namespace Composed

variable {tree : Tree}

/-- An expression is flat if and only if it has as many operands as links. -/
theorem isFlat_iff (h : Composed tree) :
    tree.IsFlat ↔ tree.links.length = tree.operands.length := by
  rw [h.links_eq]
  exact (length_flatMap_links tree.operands).2.symm

/-- The operands of an expression are its links if and only if none of them is a chain. -/
theorem operands_eq_links_iff (h : Composed tree) : tree.operands = tree.links ↔ tree.IsFlat := by
  refine ⟨fun heq => h.isFlat_iff.mpr (by rw [heq]), fun hflat => ?_⟩
  have hself : ∀ row : List Tree, (∀ leaf ∈ row, leaf.isChain = false) →
      row.flatMap links = row := by
    intro row
    induction row with
    | nil => exact fun _ => rfl
    | cons leaf row ih =>
      intro hrow
      rw [List.forall_mem_cons] at hrow
      rw [List.flatMap_cons, links_eq_self hrow.1, ih hrow.2, List.singleton_append]
  rw [h.links_eq, hself _ hflat]

end Composed

/-- A regrouping of a flat chain has the same operands if and only if it is flat as well. -/
theorem Regrouped.operands_iff {tree other : Tree} (h : Regrouped tree other)
    (htree : Composed tree) (hother : Composed other) (hflat : tree.IsFlat) :
    other.operands.map trimmed = tree.operands.map trimmed ↔ other.IsFlat := by
  have hlinks := h.links_eq
  have hoperands := htree.operands_eq_links_iff.mpr hflat
  constructor
  · -- As many operands as links leave no room for a chain among the operands.
    intro heq
    have hlength := congrArg List.length heq
    have hlength' := congrArg List.length hlinks
    rw [List.length_map, List.length_map] at hlength hlength'
    rw [hother.isFlat_iff, hlength, hoperands, hlength']
  · intro hflat'
    rw [hother.operands_eq_links_iff.mpr hflat', hoperands, hlinks]

end Tree

namespace Parse

variable {text : Text} {node : Node}

theorem composed_of_expr (h : (file text).diagnostics = [])
    (hnode : node ∈ (file text).root.descendants) (hexpr : node.kind.isExpr = true) :
    node.tree.Composed :=
  Tree.composed_of_standalone node.tree (standalone_of_expr h hnode hexpr)

/-- What the operands of a concatenation are. Its tokens are those of the operands in order with
    dots between them and with grouping parentheses. No operand is a concatenation, in one pair of
    parentheses or none, but it may be one in more of them. If none is, the operands are the links
    of the chain. Another grouping of such a chain, in the same text or another one, has the same
    operands if and only if it has no concatenation among them either. -/
theorem operands_of_regrouped (h : (file text).diagnostics = [])
    (hnode : node ∈ (file text).root.descendants) (hkind : node.kind = .concatExpr) :
    Tree.Joined node.tree.operands node.tree.tokens ∧
      (∀ leaf ∈ node.tree.operands,
        leaf.kind ≠ .concatExpr ∧ (leaf.isChain = true → 2 ≤ leaf.parens)) ∧
      (node.tree.operands = node.tree.links ↔ node.tree.IsFlat) ∧
      ∀ (other : Node) (text' : Text), (file text').diagnostics = [] →
        other ∈ (file text').root.descendants → other.kind = .concatExpr →
        Tree.Regrouped node.tree other.tree → node.tree.IsFlat →
          (other.tree.operands.map Tree.trimmed = node.tree.operands.map Tree.trimmed ↔
            other.tree.IsFlat) := by
  have hcomposed := composed_of_expr h hnode (by rw [hkind]; rfl)
  refine ⟨hcomposed.joined, hcomposed.parens_of_mem_operands, hcomposed.operands_eq_links_iff, ?_⟩
  intro other text' h' hother hkind' hregrouped hflat
  -- The other tree is composed in the same way, so the two can be compared by their links.
  have hcomposed' := composed_of_expr h' hother (by rw [hkind']; rfl)
  exact hregrouped.operands_iff hcomposed hcomposed' hflat

/-- A concatenation of a text, found by its number, with the texts of its operands and its links. -/
theorem exists_concat (h : (file text).diagnostics = []) (index : Nat) (operands links : List Text)
    (hfound : (file text).root.descendants[index]?.map (fun node =>
      (node.kind, node.tree.operands.map Tree.trimmed, node.tree.links.map Tree.trimmed)) =
        some (.concatExpr, operands, links)) :
    ∃ node ∈ (file text).root.descendants, node.kind = .concatExpr ∧
      node.tree.operands.map Tree.trimmed = operands ∧
        node.tree.links.map Tree.trimmed = links ∧
          (node.tree.IsFlat ↔ links.length = operands.length) := by
  rcases Option.map_eq_some_iff.mp hfound with ⟨node, hget, heq⟩
  rw [Prod.mk.injEq, Prod.mk.injEq] at heq
  rcases heq with ⟨hkind, rfl, rfl⟩
  have hnode := List.mem_of_getElem? hget
  have hcomposed := composed_of_expr h hnode (by rw [hkind]; rfl)
  refine ⟨node, hnode, hkind, rfl, rfl, ?_⟩
  rw [List.length_map, List.length_map]
  exact hcomposed.isFlat_iff

/-- Two groupings of a chain of three links, neither of which has a chain among its operands. -/
theorem operands_of_regrouped_right :
    (file "'a' . ($b . f()); ('a' . $b) . f();".toList).diagnostics = [] ∧
      ∃ node ∈ (file "'a' . ($b . f()); ('a' . $b) . f();".toList).root.descendants,
        ∃ other ∈ (file "'a' . ($b . f()); ('a' . $b) . f();".toList).root.descendants,
          node.kind = .concatExpr ∧ other.kind = .concatExpr ∧
            Tree.Regrouped node.tree other.tree ∧ node.tree.IsFlat ∧ other.tree.IsFlat ∧
              other.tree.operands.map Tree.trimmed = node.tree.operands.map Tree.trimmed := by
  obtain ⟨hclean, hright, hleft⟩ :
      (file "'a' . ($b . f()); ('a' . $b) . f();".toList).diagnostics = [] ∧
      (file "'a' . ($b . f()); ('a' . $b) . f();".toList).root.descendants[2]?.map
        (fun (node : Node) => (node.kind, node.tree.operands.map Tree.trimmed,
          node.tree.links.map Tree.trimmed)) =
          some (Kind.concatExpr, ["'a'".toList, "$b".toList, "f()".toList],
            ["'a'".toList, "$b".toList, "f()".toList]) ∧
      (file "'a' . ($b . f()); ('a' . $b) . f();".toList).root.descendants[11]?.map
        (fun (node : Node) => (node.kind, node.tree.operands.map Tree.trimmed,
          node.tree.links.map Tree.trimmed)) =
          some (Kind.concatExpr, ["'a'".toList, "$b".toList, "f()".toList],
            ["'a'".toList, "$b".toList, "f()".toList]) := by
    decide +kernel
  rcases exists_concat hclean 2 _ _ hright with ⟨node, hnode, hkind, _, hlinks, hflat⟩
  rcases exists_concat hclean 11 _ _ hleft with ⟨other, hother, hkind', _, hlinks', hflat'⟩
  have hregrouped := Tree.regrouped_iff.mpr (hlinks.trans hlinks'.symm)
  have hsame := (operands_of_regrouped hclean hnode hkind).2.2.2 other _ hclean hother hkind'
    hregrouped (hflat.mpr rfl)
  exact ⟨hclean, node, hnode, other, hother, hkind, hkind', hregrouped, hflat.mpr rfl,
    hflat'.mpr rfl, hsame.mpr (hflat'.mpr rfl)⟩

/-- Two groupings of a chain with different operands. In the first of them a part of the chain is in
    two pairs of parentheses, and is an operand. -/
theorem operands_regrouped_doubled :
    (file "(('a' . $b)) . $c; 'a' . $b . $c;".toList).diagnostics = [] ∧
      ∃ node ∈ (file "(('a' . $b)) . $c; 'a' . $b . $c;".toList).root.descendants,
        ∃ other ∈ (file "(('a' . $b)) . $c; 'a' . $b . $c;".toList).root.descendants,
          node.kind = .concatExpr ∧ other.kind = .concatExpr ∧
            Tree.Regrouped node.tree other.tree ∧ ¬ node.tree.IsFlat ∧
              node.tree.operands.map Tree.trimmed = ["(('a' . $b))".toList, "$c".toList] ∧
                other.tree.operands.map Tree.trimmed =
                  ["'a'".toList, "$b".toList, "$c".toList] := by
  obtain ⟨hclean, hdoubled, hplain⟩ :
      (file "(('a' . $b)) . $c; 'a' . $b . $c;".toList).diagnostics = [] ∧
      (file "(('a' . $b)) . $c; 'a' . $b . $c;".toList).root.descendants[2]?.map
        (fun (node : Node) => (node.kind, node.tree.operands.map Tree.trimmed,
          node.tree.links.map Tree.trimmed)) =
          some (Kind.concatExpr, ["(('a' . $b))".toList, "$c".toList],
            ["'a'".toList, "$b".toList, "$c".toList]) ∧
      (file "(('a' . $b)) . $c; 'a' . $b . $c;".toList).root.descendants[10]?.map
        (fun (node : Node) => (node.kind, node.tree.operands.map Tree.trimmed,
          node.tree.links.map Tree.trimmed)) =
          some (Kind.concatExpr, ["'a'".toList, "$b".toList, "$c".toList],
            ["'a'".toList, "$b".toList, "$c".toList]) := by
    decide +kernel
  rcases exists_concat hclean 2 _ _ hdoubled with ⟨node, hnode, hkind, hoperands, hlinks, hflat⟩
  rcases exists_concat hclean 10 _ _ hplain with
    ⟨other, hother, hkind', hoperands', hlinks', _⟩
  refine ⟨hclean, node, hnode, other, hother, hkind, hkind',
    Tree.regrouped_iff.mpr (hlinks.trans hlinks'.symm), fun h => ?_, hoperands, hoperands'⟩
  -- Two operands stand against three links.
  exact absurd (hflat.mp h) (by decide)

end Parse

end PhpAssist

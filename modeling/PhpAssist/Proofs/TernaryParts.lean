import PhpAssist.Assist.Ternary
import PhpAssist.Proofs.Parts

/-!
# The statement that is taken apart

What the search for an assigned conditional finds are nodes of the tree, and their shapes fit
together: the statement is an assignment, its value is the conditional with parentheses around it
or not, and the conditional has the three parts that were found.

## Main definitions

* `TernaryAssignment.Fits`: The shapes of what was found fit together.

## Theorems

* `AssistContext.ancestors_subset`: The nodes around a cursor are in the tree.
* `TernaryAssignment.ofTernary_eq_ok`: What is found around a conditional.
* `TernaryAssignment.fits_of_locate`: What is found fits together.
-/

namespace PhpAssist

/-! ## The nodes around a cursor -/

namespace Node

theorem mem_leaves {root : Node} {leaf : Leaf} : leaf ∈ root.leaves ↔ .leaf leaf ∈ root.subtree := by
  rw [leaves, List.mem_filterMap]
  constructor
  · rintro ⟨element, helement, hleaf⟩
    cases element with
    | leaf it =>
      rw [Element.leaf?, Option.some.injEq] at hleaf
      exact hleaf ▸ helement
    | node it => exact absurd hleaf (by simp only [Element.leaf?, reduceCtorEq, not_false_eq_true])
  · exact fun h => ⟨.leaf leaf, h, rfl⟩

theorem owner_mem_leaves {root : Node} {stretch : Stretch} (h : stretch ∈ root.stretches) :
    stretch.owner ∈ root.leaves := by
  rw [stretches, List.mem_flatMap] at h
  rcases h with ⟨leaf, hleaf, h⟩
  rw [Leaf.stretches, List.mem_map] at h
  rcases h with ⟨span, _, rfl⟩
  exact hleaf

/-- The tokens at an offset are tokens of the tree. -/
theorem leavesAt_subset {root : Node} {offset : Nat} {leaf : Leaf}
    (h : leaf ∈ (root.leavesAt offset).toList) : leaf ∈ root.leaves := by
  have howner {index : Nat} {stretch : Stretch} (hget : root.stretches[index]? = some stretch) :
      stretch.owner ∈ root.leaves := owner_mem_leaves (List.mem_of_getElem? hget)
  revert h
  fun_cases leavesAt root offset with
  -- Every leaf that is returned owns a stretch of the row that was searched.
  | case1 | case2 | case6 => exact fun h => absurd h List.not_mem_nil
  | case3 _ row index first hfirst _ _ =>
    intro h
    rw [AtOffset.toList, List.mem_singleton] at h
    exact h ▸ howner hfirst
  | case4 _ row index first hfirst _ next hnext _ =>
    intro h
    rw [AtOffset.toList, List.mem_cons, List.mem_singleton] at h
    rcases h with rfl | rfl
    · exact howner hfirst
    · exact howner hnext
  | case5 _ row index first hfirst _ next _ _ =>
    intro h
    rw [AtOffset.toList, List.mem_singleton] at h
    exact h ▸ howner hfirst

end Node

theorem AtOffset.best?_mem {tokens : AtOffset} {priority : Kind → Nat} {leaf : Leaf}
    (h : tokens.best? priority = some leaf) : leaf ∈ tokens.toList := by
  cases tokens with
  | none => exact absurd h (by simp only [best?, reduceCtorEq, not_false_eq_true])
  | single it =>
    rw [best?, Option.some.injEq] at h
    rw [h]
    exact List.mem_singleton_self leaf
  | between left right =>
    rw [best?, Option.some.injEq] at h
    rw [toList, ← h]
    split
    · exact List.mem_cons_of_mem _ List.mem_cons_self
    · exact List.mem_cons_self

namespace AssistContext

variable {context : AssistContext}

theorem leaf?_mem {leaf : Leaf} (h : context.leaf? = some leaf) :
    leaf ∈ context.parse.root.leaves :=
  Node.leavesAt_subset (AtOffset.best?_mem h)

/-- The nodes around a cursor are in the tree. -/
theorem ancestors_subset (hroot : context.parse.root.parents = []) :
    context.ancestors ⊆ context.parse.root.descendants := by
  intro node hnode
  rw [ancestors] at hnode
  split at hnode
  · rename_i leaf hleaf
    exact Node.parents_mem hroot (Node.mem_leaves.mp (leaf?_mem hleaf)) hnode
  · exact absurd hnode List.not_mem_nil

end AssistContext

/-- The nodes around a node of a tree are in the tree. -/
theorem Node.ancestors_subset {root node : Node} (hroot : root.parents = [])
    (h : node ∈ root.descendants) : node.ancestors ⊆ root.descendants := by
  intro outer houter
  rcases List.mem_cons.mp houter with rfl | houter
  · exact h
  · exact Node.parents_mem hroot (Node.mem_descendants.mp h) houter

theorem Node.cast?_eq_some {kind : Kind} {node result : Node} (h : node.cast? kind = some result) :
    result = node ∧ node.kind = kind := by
  rw [cast?] at h
  split at h
  · rename_i hkind
    exact ⟨(Option.some.inj h).symm, beq_iff_eq.mp hkind⟩
  · exact absurd h (by simp only [reduceCtorEq, not_false_eq_true])

namespace TernaryAssignment

/-- What was found are nodes of a tree whose shapes fit together. -/
structure Fits (root : Node) (found : TernaryAssignment) : Prop where
  members : ∀ node ∈ [found.stmt, found.ternary, found.target, found.condition, found.whenTrue,
    found.whenFalse], node ∈ root.descendants
  standalone : ∀ node ∈ [found.ternary, found.target, found.condition, found.whenTrue,
    found.whenFalse], Grammar.Standalone node.tree.shape
  stmt : found.stmt.kind = .exprStmt
  assign : ∃ assign value, found.stmt.first? = some assign ∧ value.unwrapped =
    found.ternary.tree.shape ∧ assign.tree.shape = .node .assignExpr
      [found.target.tree.shape, .word found.operator.token.word, value]
  ternary : ∃ question colon, found.ternary.tree.shape = .node .ternaryExpr
    [found.condition.tree.shape, .word question, found.whenTrue.tree.shape, .word colon,
      found.whenFalse.tree.shape]
  operator : found.operator.kind = .equals ∨ found.operator.kind = .assignOp
  operatorMember : .leaf found.operator ∈ root.subtree
  assignable : Grammar.isAssignable found.target.kind = true
  target : Grammar.Derives (.operation 0) (some found.operator.token.word) [found.target.tree.shape]

variable {root ternary : Node} {found : TernaryAssignment}

/-- What is found around a conditional are its parts, the statement around it, and the target and
    the operator of the assignment that the statement is. -/
theorem ofTernary_eq_ok (h : ofTernary ternary = .ok found) :
    found.ternary = ternary ∧ ternary.ternaryPart? .condition = some found.condition ∧
      ternary.ternaryPart? .whenTrue = some found.whenTrue ∧
      ternary.ternaryPart? .whenFalse = some found.whenFalse ∧
      found.stmt ∈ ternary.ancestors ∧ found.stmt.kind = .exprStmt ∧
      found.target.tree.hasSideEffects = false ∧
      ∃ assign, found.stmt.first? = some assign ∧ assign.kind = .assignExpr ∧
        (assign.second?.any fun value => value.unparenthesized.same ternary) = true ∧
        assign.first? = some found.target ∧ assign.assignOp? = some found.operator := by
  unfold ofTernary at h
  split at h
  · rename_i condition whenTrue whenFalse hcondition htrue hfalse
    dsimp only at h
    split at h
    · exact absurd h (by simp only [reduceCtorEq, not_false_eq_true])
    rename_i stmt hstmt
    split at h
    · exact absurd h (by simp only [reduceCtorEq, not_false_eq_true])
    rename_i assign hassign
    split at h
    · rename_i target operator htarget hoperator
      split at h
      · exact absurd h (by simp only [reduceCtorEq, not_false_eq_true])
      rename_i hidle
      split at h
      · exact absurd h (by simp only [reduceCtorEq, not_false_eq_true])
      -- Every check was passed; each gives one fact.
      rw [← Except.ok.inj h]
      rcases Option.filter_eq_some_iff.mp hassign with ⟨hsome, hsame⟩
      rcases Option.bind_eq_some_iff.mp hsome with ⟨first, hbound, hcast⟩
      rcases Option.bind_eq_some_iff.mp hbound with ⟨stmt', hcast', hfirst⟩
      rcases Node.cast?_eq_some hcast with ⟨rfl, hassignKind⟩
      rcases Node.cast?_eq_some hcast' with ⟨rfl, hstmtKind⟩
      exact ⟨rfl, hcondition, htrue, hfalse, List.mem_of_find?_eq_some hstmt, hstmtKind,
        Bool.eq_false_iff.mpr hidle, assign, hfirst, hassignKind, hsame, htarget, hoperator⟩
    · exact absurd h (by simp only [reduceCtorEq, not_false_eq_true])
  · exact absurd h (by simp only [reduceCtorEq, not_false_eq_true])

/-- An assignment statement that was found around a conditional fits it. -/
theorem fits_of_ofTernary (hroot : root.parents = [])
    (hexprs : ∀ node ∈ root.descendants, node.kind.isExpr = true →
      Grammar.Standalone node.tree.shape)
    (hternary : ternary ∈ root.descendants) (hkind : ternary.kind = .ternaryExpr)
    (h : ofTernary ternary = .ok found) : found.Fits root := by
  rcases ofTernary_eq_ok h with ⟨rfl, hcondition, htrue, hfalse, hstmt, hstmtKind, _, assign,
    hfirst, hassignKind, hsame, htarget, hoperator⟩
  have hstmtMem := Node.ancestors_subset hroot hternary hstmt
  have hassignMem : assign ∈ root.descendants :=
    Node.mem_descendants_of_child hstmtMem
      (Node.mem_elements_of_childNodes (List.mem_of_getElem? hfirst))
  -- The assignment and the conditional have their parts, and these are the parts found.
  have hassign' := hexprs assign hassignMem (by rw [hassignKind]; rfl)
  rcases Node.assign_of_kind hassign' hassignKind with
    ⟨target', leaf, value, hnodes, hleaves, hleaf, hop, hassignable, hleft, hvalue, hshape⟩
  have hchild {child : Node} (hmem : child ∈ assign.childNodes) : child ∈ root.descendants :=
    Node.mem_descendants_of_child hassignMem (Node.mem_elements_of_childNodes hmem)
  have htarget' : found.target = target' := by
    rw [Node.first?, hnodes] at htarget
    exact (Option.some.inj htarget).symm
  have hoperator' : found.operator = leaf := by
    have hassigns : (leaf.kind == .equals || leaf.kind == .assignOp) = true := by
      rw [Bool.or_eq_true, beq_iff_eq, beq_iff_eq]
      exact hop
    rw [Node.assignOp?, Node.childLeaf?, hleaves, List.find?_cons, hassigns] at hoperator
    exact (Option.some.inj hoperator).symm
  have hsecond : assign.second? = some value := by
    rw [Node.second?, hnodes]
    rfl
  rw [hsecond, Option.any_some] at hsame
  have hvalueMem : value ∈ root.descendants := hchild (by
    rw [hnodes]
    exact List.mem_cons_of_mem _ List.mem_cons_self)
  -- Without its brackets the value is the conditional itself.
  have hunwrapped := Node.unwrapped_unparenthesized hvalueMem hvalue
  have heq := Node.eq_of_same hunwrapped.1 hternary hsame
  rw [heq] at hunwrapped
  rcases Node.ternary_of_kind hunwrapped.2.1 hkind htrue with
    ⟨condition', whenTrue', whenFalse', question, colon, hparts, hcondition', htrue', hfalse',
      hstandalone, hstandalone', hstandalone'', hternaryShape⟩
  have hpart {child : Node} (hmem : child ∈ found.ternary.childNodes) : child ∈ root.descendants :=
    Node.mem_descendants_of_child hternary (Node.mem_elements_of_childNodes hmem)
  have hcondition'' := Option.some.inj (hcondition.symm.trans hcondition')
  have htrue'' := Option.some.inj (htrue.symm.trans htrue')
  have hfalse'' := Option.some.inj (hfalse.symm.trans hfalse')
  -- What was found are the parts that the grammar gives.
  subst hcondition'' htrue'' hfalse'' htarget' hoperator'
  rw [hparts] at hpart
  rw [hnodes] at hchild
  constructor
  · intro node hnode
    simp only [List.mem_cons, List.not_mem_nil, or_false] at hnode
    rcases hnode with rfl | rfl | rfl | rfl | rfl | rfl
    · exact hstmtMem
    · exact hternary
    · exact hchild List.mem_cons_self
    · exact hpart List.mem_cons_self
    · exact hpart (List.mem_cons_of_mem _ List.mem_cons_self)
    · exact hpart (List.mem_cons_of_mem _ (List.mem_cons_of_mem _ List.mem_cons_self))
  · intro node hnode
    simp only [List.mem_cons, List.not_mem_nil, or_false] at hnode
    rcases hnode with rfl | rfl | rfl | rfl | rfl
    · exact hunwrapped.2.1
    · exact hleft.standalone rfl
    · exact hstandalone
    · exact hstandalone'
    · exact hstandalone''
  · exact hstmtKind
  · exact ⟨assign, value.tree.shape, hfirst, hunwrapped.2.2.symm, hshape⟩
  · exact ⟨question, colon, hternaryShape⟩
  · exact hop
  · exact Node.elements_subset (Node.mem_descendants.mp hassignMem) hleaf
  · exact hassignable
  · exact hleft

/-- What is found at a cursor is found around a conditional around the cursor. -/
theorem ternary_of_locate {context : AssistContext} (h : locate context = .ok found) :
    found.ternary ∈ context.ancestors ∧ found.ternary.kind = .ternaryExpr ∧
      ofTernary found.ternary = .ok found := by
  unfold locate at h
  split at h
  · exact absurd h (by simp only [reduceCtorEq, not_false_eq_true])
  · rename_i ternary hternary
    have hkind := List.find?_some hternary
    rw [beq_iff_eq] at hkind
    rcases ofTernary_eq_ok h with ⟨rfl, _⟩
    exact ⟨List.mem_of_find?_eq_some hternary, hkind, h⟩

/-- An assignment statement that was found around a cursor fits its conditional. -/
theorem fits_of_locate {text : Text} {context : AssistContext}
    (hclean : (Parse.file text).diagnostics = []) (hparse : context.parse = Parse.file text)
    (h : locate context = .ok found) : found.Fits context.parse.root := by
  have hroot : context.parse.root.parents = [] := by
    rcases Parse.clean_file_of_diagnostics hclean with ⟨_, _, hclean'⟩
    rcases hclean'.root with ⟨trees, hroot, _⟩
    rw [hparse, hroot]
    rfl
  rcases ternary_of_locate h with ⟨hternary, hkind, hfound⟩
  refine fits_of_ofTernary hroot ?_ (AssistContext.ancestors_subset hroot hternary) hkind hfound
  rw [hparse]
  exact fun node hnode hexpr => Parse.standalone_of_expr hclean hnode hexpr

end TernaryAssignment

/-- A node of a file without diagnostics whose shape is an expression can be taken out. -/
theorem Parse.excerpt_of_standalone {text : Text} {node : Node} (h : (file text).diagnostics = [])
    (hnode : node ∈ (file text).root.descendants) (hshape : Grammar.Standalone node.tree.shape) :
    node.tree.Excerpt := by
  refine excerpt_of_expr h hnode ?_
  have hexpr := hshape.isExpr
  rw [Tree.kind_shape] at hexpr
  exact hexpr

/-! ## Operators of assignments -/

theorem Lexes.scan_of_mem {tokens : List Token} {text rest : Text} (h : Lexes tokens text rest)
    {tok : Token} (htok : tok ∈ tokens) :
    ∃ after, Lexer.scan (tok.text ++ after) = (tok.kind, ⟨tok.text, after, true⟩) := by
  induction h with
  | nil => exact absurd htok List.not_mem_nil
  | @cons _ _ _ after _ _ _ _ hscan _ _ ih =>
    rcases List.mem_cons.mp htok with rfl | htok
    · exact ⟨after, hscan⟩
    · exact ih htok

/-- A token in a text without diagnostics was read from it. -/
theorem Parse.Clean.scan_of_leaf {text : Text} {parse : Parse} {row : List Shape}
    (h : Parse.Clean text parse row) {leaf : Leaf} (hleaf : .leaf leaf ∈ parse.root.subtree)
    (hkind : leaf.kind ≠ .endOfFile) :
    ∃ after, Lexer.scan (leaf.token.text ++ after) =
      (leaf.kind, ⟨leaf.token.text, after, true⟩) := by
  rcases h.root with ⟨trees, hroot, htokens, _⟩
  have hmem : leaf.token ∈ parse.root.leaves.map Leaf.token :=
    List.mem_map_of_mem (Node.mem_leaves.mpr hleaf)
  have hleaves : parse.root.leaves.map Leaf.token =
      Tree.tokensOf (trees ++ [Tree.token (Lexing.of text).last]) := by
    rw [hroot]
    exact Node.leaves_locateAll _ Place.origin.inside _
  rw [hleaves, Tree.tokensOf_eq_flatMap, List.flatMap_append, ← Tree.tokensOf_eq_flatMap, htokens,
    List.mem_append, List.flatMap_singleton, Tree.tokens, List.mem_singleton] at hmem
  -- A token that was scanned, or the end of the file, which is excluded.
  rcases hmem with hmem | hmem
  · rcases Lexing.lexes_of h.errors with ⟨_, hlexes, _⟩
    exact hlexes.scan_of_mem hmem
  · rw [Leaf.kind, hmem, Lexing.kind_last] at hkind
    exact absurd rfl hkind

namespace Lexer

/-- Only punctuation assigns. -/
theorem spelling_of_assign {text : Text} {kind : Kind} {cut : Cut}
    (hkind : kind = .equals ∨ kind = .assignOp) (h : scan text = (kind, cut)) :
    ∃ word, (word, kind) ∈ punctuation ∧ cut.taken = word.toList := by
  have hnot {other : Kind} (h : other ≠ .equals ∧ other ≠ .assignOp) : kind ≠ other := by
    rintro rfl
    exact hkind.elim h.1 h.2
  generalize hspelling : kind = kind' at h
  -- Only punctuation has these kinds.
  cases spelling_of_scan h with
  | dollar | single | double => exact absurd hspelling (hnot (by decide))
  | @heredoc isNowdoc =>
    cases isNowdoc
    · exact absurd hspelling (hnot (by decide))
    · exact absurd hspelling (hnot (by decide))
  | mark hword htaken => exact ⟨_, hword, htaken⟩
  | other _ hother =>
    refine absurd ?_ hother
    rw [← hspelling]
    rcases hkind with rfl | rfl
    · decide
    · decide

/-- The operators of assignments. -/
def assignments : List (String × Kind) :=
  [("<<=", .assignOp), (">>=", .assignOp), ("**=", .assignOp), ("??=", .assignOp),
   ("+=", .assignOp), ("-=", .assignOp), ("*=", .assignOp), ("/=", .assignOp), (".=", .assignOp),
   ("%=", .assignOp), ("&=", .assignOp), ("|=", .assignOp), ("^=", .assignOp), ("=", .equals)]

theorem mem_assignments : ∀ entry ∈ punctuation, entry.2 = .equals ∨ entry.2 = .assignOp →
    entry ∈ assignments := by
  decide +kernel

theorem assignments_subset : assignments ⊆ punctuation := by decide +kernel

/-- An operator of an assignment ends at a blank. -/
theorem scan_assign_space {entry : String × Kind} (hentry : entry ∈ assignments) (rest : Text) :
    scan (entry.1.toList ++ ' ' :: rest) = (entry.2, ⟨entry.1.toList, ' ' :: rest, true⟩) := by
  simp only [assignments, List.mem_cons, List.not_mem_nil, or_false] at hentry
  rcases hentry with rfl | rfl | rfl | rfl | rfl | rfl | rfl | rfl | rfl | rfl | rfl | rfl | rfl | rfl
  all_goals rfl

end Lexer

end PhpAssist

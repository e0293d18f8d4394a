import PhpAssist.Proofs.CodeSegments
import PhpAssist.Proofs.NamedParts
import PhpAssist.Proofs.TargetReads

/-!
# Expressions that do nothing by themselves

Two rewrites move an expression on the strength of one test: whether it does anything by itself. The
test asks for the kinds of the nodes. Whether it is the right question can be seen from what is
written: something is called if there is a list of arguments, something is created if there is a
`new`, and something is changed if there is an operator that assigns or steps up or down. Node by
node this is the same, since the grammar puts each of these into a node of the kinds that are asked
for, and makes no such node without one of them.

The test stops at strings, though. A string is a single token, and the code in braces in it is not
read, so `"{$b[f()]}"` passes as an expression that does nothing. An index with such a string in it
is taken for an access, and it is let through as the target of an assignment.

What runs is therefore told by two things: the test, and the test again for the code in the strings,
which is read like a text of its own and has strings with code in them in its turn.

## Main definitions

* `Tree.Acts`: A tree in which something is called, created, assigned or stepped.
* `Token.codes`: The code in braces in a string.
* `Parse.expression?`: The expression that a text is read as.
* `Tree.Embeds`: An expression in a string of a tree, at any depth.
* `Tree.Runs`: A tree that acts, by itself or in its strings.

## Theorems

* `Grammar.Derives.agrees`: What acts in a derived row is in a node that the test asks for.
* `Tree.hasSideEffects_iff`: The test is right about what is outside of strings.
* `Tree.runs_iff`: What runs in an expression.
* `Parse.runs_iff_hasSideEffects`: What runs in an access and in the target of a split assignment.
* `Parse.runs_of_access`: An access that calls a function.
-/

namespace PhpAssist

/-! ## What acts -/

/-- Whether a word is an operator that assigns, or one that steps up or down. -/
def Word.changes (word : Word) : Bool :=
  word.kind == .equals || word.kind == .assignOp ||
    word.kind == .operator && (word.text == ['+', '+'] || word.text == ['-', '-'])

/-- Whether something is called, created, assigned or stepped in a tree. A call shows in its list of
    arguments, a creation in its node, and the others in their operator. -/
def Tree.Acts (tree : Tree) : Prop :=
  (∃ sub ∈ tree.subtrees, sub.kind = .argList ∨ sub.kind = .newExpr) ∨
    ∃ tok ∈ tree.tokens, tok.word.changes = true

namespace Shape

/-- Whether something is called, created, assigned or stepped in a row. -/
def Acts (row : List Shape) : Prop :=
  (∃ node ∈ nodesOf row, node.kind = .argList ∨ node.kind = .newExpr) ∨
    ∃ word ∈ wordsOf row, word.changes = true

/-- Whether a node by itself can change something, told by its shape. -/
def isEffect (shape : Shape) : Bool :=
  match shape.kind with
  | .callExpr | .newExpr | .assignExpr | .postfixExpr => true
  | .prefixExpr => (shape.words.find? (!·.kind.isTrivia)).any fun word =>
      word.text == ['+', '+'] || word.text == ['-', '-']
  | _ => false

/-- Whether a row has a node that can change something. -/
def HasEffect (row : List Shape) : Prop := ∃ node ∈ nodesOf row, node.isEffect = true

/-- A row in which something acts if and only if it has a node that can change something. -/
def Agrees (row : List Shape) : Prop := HasEffect row ↔ Acts row

/-- The kinds of nodes that do nothing by themselves. -/
def quietKinds : List Kind :=
  [.variable, .nameRef, .literal, .stringLiteral, .parenExpr, .arrayExpr, .arrayItem, .indexExpr,
    .memberExpr, .staticExpr, .ternaryExpr, .concatExpr, .binaryExpr]

namespace Agrees

variable {row more : List Shape} {shape : Shape} {kind : Kind}

theorem nil : Agrees [] := by
  simp only [Agrees, HasEffect, Acts, nodesOf_nil, wordsOf_nil, List.not_mem_nil, false_and,
    exists_false, or_self]

theorem append (h : Agrees row) (hmore : Agrees more) : Agrees (row ++ more) := by
  unfold Agrees HasEffect Acts at h hmore ⊢
  simp only [nodesOf_append, wordsOf_append, List.mem_append, or_and_right, exists_or]
  rw [h, hmore]
  exact or_or_or_comm

theorem cons (h : Agrees [shape]) (hmore : Agrees more) : Agrees (shape :: more) := append h hmore

theorem word {it : Word} (hword : it.changes = false) (hmore : Agrees more) :
    Agrees (.word it :: more) := by
  refine cons ?_ hmore
  unfold Agrees HasEffect Acts
  simp only [nodesOf_cons, nodes_word, nodesOf_nil, List.append_nil, wordsOf_cons, words_word,
    wordsOf_nil, List.not_mem_nil, List.mem_singleton, false_and, exists_false, false_or,
    exists_eq_left, hword, Bool.false_eq_true]

/-- The words around a row change nothing. -/
theorem inBrackets {opening closing : Word} (hopening : opening.changes = false)
    (hclosing : closing.changes = false) (h : Agrees row) :
    Agrees (.word opening :: (row ++ [Shape.word closing])) :=
  word hopening (h.append (word hclosing nil))

/-- A node that does nothing by itself. -/
theorem node (hkind : isEffect (.node kind row) = false) (hlist : kind ≠ .argList)
    (hnew : kind ≠ .newExpr) (h : Agrees row) : Agrees [.node kind row] := by
  unfold Agrees HasEffect Acts at h ⊢
  simp only [nodesOf_cons, nodes_node, nodesOf_nil, List.append_nil, wordsOf_cons, words_node,
    wordsOf_nil, List.mem_cons, or_and_right, exists_or, exists_eq_left, hkind, Bool.false_eq_true,
    false_or, Shape.kind, hlist, hnew, or_self]
  exact h

theorem quiet (hkind : kind ∈ quietKinds) (h : Agrees row) : Agrees [.node kind row] := by
  have hall : ∀ kind ∈ quietKinds, isEffect (.node kind row) = false ∧ kind ≠ .argList ∧
      kind ≠ .newExpr := by
    simp only [quietKinds, List.forall_mem_cons, isEffect, Shape.kind, ne_eq, reduceCtorEq,
      not_false_eq_true, and_self, true_and]
    exact fun _ hnil => absurd hnil List.not_mem_nil
  rcases hall kind hkind with ⟨heffect, hlist, hnew⟩
  exact node heffect hlist hnew h

/-- A node that changes something, in which something acts. -/
theorem effect (heffect : isEffect (.node kind row) = true) (hacts : Acts [.node kind row]) :
    Agrees [.node kind row] :=
  ⟨fun _ => hacts, fun _ => ⟨_, List.mem_cons_self, heffect⟩⟩

end Agrees

theorem acts_of_word {row : List Shape} {word : Word} (hword : word.changes = true)
    (hmem : word ∈ wordsOf row) : Acts row :=
  .inr ⟨word, hmem, hword⟩

theorem acts_of_node {row : List Shape} {shape : Shape}
    (hkind : shape.kind = .argList ∨ shape.kind = .newExpr) (hmem : shape ∈ nodesOf row) :
    Acts row :=
  .inl ⟨shape, hmem, hkind⟩

end Shape

namespace Grammar

open Shape (Agrees)

/-- The places that occur in expressions: all but those of parameters. -/
def Symbol.inExpr : Symbol → Bool
  | .item .parameter | .items .parameter => false
  | _ => true

theorem ListSort.inExpr_item (sort : ListSort) :
    (Symbol.item sort).inExpr = (Symbol.items sort).inExpr := by
  cases sort <;> rfl

/-- A word that changes something is an operator. -/
theorem kind_of_changes {word : Word} (h : word.changes = true) :
    word.kind ∈ [Kind.equals, .assignOp, .operator] := by
  simp only [Word.changes, Bool.or_eq_true, Bool.and_eq_true, beq_iff_eq] at h
  simp only [List.mem_cons, List.not_mem_nil, or_false]
  rcases h with (hkind | hkind) | ⟨hkind, _⟩
  · exact .inl hkind
  · exact .inr (.inl hkind)
  · exact .inr (.inr hkind)

theorem changes_of_kind {word : Word} {kind : Kind} (hword : word.kind = kind)
    (hkind : kind ∉ [Kind.equals, .assignOp, .operator]) : word.changes = false := by
  by_contra hchanges
  rw [Bool.not_eq_false] at hchanges
  exact hkind (hword ▸ kind_of_changes hchanges)

/-- A word that a table of kinds has an entry for changes nothing, if the table has none for
    operators. -/
theorem changes_of_table {table : Kind → Option Kind} {word : Word} {found : Kind}
    (htable : ∀ kind ∈ [Kind.equals, .assignOp, .operator], table kind = none)
    (h : table word.kind = some found) : word.changes = false := by
  by_contra hchanges
  rw [Bool.not_eq_false] at hchanges
  rw [htable _ (kind_of_changes hchanges)] at h
  exact Option.some_ne_none _ h.symm

/-- The name of a member changes nothing. -/
theorem changes_of_name {word : Word}
    (h : word.kind = .name ∨ word.kind.isKeyword = true) : word.changes = false := by
  refine changes_of_kind rfl fun hmem => ?_
  simp only [List.mem_cons, List.not_mem_nil, or_false] at hmem
  rcases hmem with hkind | hkind | hkind
  all_goals
    rw [hkind] at h
    exact absurd h (by decide)

theorem changes_of_step {word : Word} (hkind : word.kind = .operator)
    (hstep : word.text = ['+', '+'] ∨ word.text = ['-', '-']) : word.changes = true := by
  unfold Word.changes
  rcases hstep with htext | htext
  all_goals
    rw [hkind, htext]
    rfl

/-- An operator between two operands changes nothing. -/
theorem changes_of_binding? {word : Word} {binding : Binding}
    (h : binding? word.kind word.text = some binding) : word.changes = false := by
  by_contra hchanges
  rw [Bool.not_eq_false] at hchanges
  simp only [Word.changes, Bool.or_eq_true, Bool.and_eq_true, beq_iff_eq] at hchanges
  rcases kind_of_binding? h with hkind | hkind
  · rw [hkind] at hchanges
    simp only [reduceCtorEq, false_and, or_self] at hchanges
  · rw [hkind] at hchanges h
    simp only [reduceCtorEq, true_and, false_or] at hchanges
    -- The steps are operators too, but they bind nothing.
    have hnone : ∀ step ∈ [['+', '+'], ['-', '-']], binding? .operator step = none := by decide
    rw [hnone word.text] at h
    · exact Option.some_ne_none _ h.symm
    · simp only [List.mem_cons, List.not_mem_nil, or_false]
      exact hchanges

/-- An operator in front of an operand makes an effect if it steps. -/
theorem agrees_leading {op : Word} {inner : Shape} (hop : isLeading op = true)
    (h : Agrees [inner]) : Agrees [.node .prefixExpr [.word op, inner]] := by
  have hkind : op.kind = .operator := by
    rw [isLeading, Bool.and_eq_true, beq_iff_eq] at hop
    exact hop.1
  have hfirst : Shape.isEffect (.node .prefixExpr [.word op, inner]) =
      (op.text == ['+', '+'] || op.text == ['-', '-']) := by
    have hfind : (Shape.node .prefixExpr [.word op, inner]).words.find? (!·.kind.isTrivia) =
        some op := by
      rw [Shape.words_node, Shape.wordsOf_cons, Shape.words_word, List.singleton_append,
        List.find?_cons_of_pos (by rw [hkind]; rfl)]
    rw [Shape.isEffect, Shape.kind, hfind, Option.any_some]
  -- Of the leading operators only the steps act.
  by_cases hstep : op.text = ['+', '+'] ∨ op.text = ['-', '-']
  · refine .effect ?_ (Shape.acts_of_word (changes_of_step hkind hstep) List.mem_cons_self)
    rw [hfirst, Bool.or_eq_true, beq_iff_eq, beq_iff_eq]
    exact hstep
  · have hplain : (op.text == ['+', '+'] || op.text == ['-', '-']) = false := by
      rw [Bool.or_eq_false_iff, beq_eq_false_iff_ne, beq_eq_false_iff_ne]
      exact not_or.mp hstep
    refine .node (hfirst.trans hplain) (by decide) (by decide) (.word ?_ h)
    rw [Word.changes, hkind, hplain]
    rfl

/-- What acts in a derived row is in a node that can change something, and such a node acts. -/
theorem Derives.agrees {symbol : Symbol} {look : Option Word} {row : List Shape}
    (h : Derives symbol look row) : symbol.inExpr = true → Agrees row := by
  induction h with
  -- What has no effect of its own agrees if its parts do; what has one carries the word or the node
  -- that acts.
  | token hkind =>
    intro _
    refine .quiet ?_ (.word (changes_of_table (by decide) hkind) .nil)
    rcases kind_of_operandKind? hkind with ⟨_, rfl⟩ | rfl | rfl | ⟨_, rfl⟩ <;> decide
  | paren hopening hclosing _ ih =>
    intro _
    exact .quiet (by decide) (.inBrackets (changes_of_kind hopening (by decide))
      (changes_of_kind hclosing (by decide)) (ih rfl))
  | array hopening hclosing _ ih =>
    intro _
    exact .quiet (by decide) (.inBrackets (changes_of_kind hopening (by decide))
      (changes_of_kind hclosing (by decide)) (ih rfl))
  | new | newWith =>
    intro _
    exact .effect rfl (Shape.acts_of_node (.inr rfl) List.mem_cons_self)
  | access _ ih | operand _ _ ih | operation _ ih | expr _ _ ih | argument _ ih => exact ih
  -- A call acts through its argument list, `new` through its own node, and a step and an assignment
  -- through their operators.
  | @call _ opening closing base row _ _ _ _ _ _ =>
    intro _
    have hmem : Shape.node .argList (.word opening :: (row ++ [Shape.word closing])) ∈
        Shape.nodesOf [.node .callExpr [base,
          .node .argList (.word opening :: (row ++ [Shape.word closing]))]] := by
      simp only [Shape.nodesOf_cons, Shape.nodes_node, Shape.nodesOf_nil, List.mem_cons,
        List.mem_append, true_or, or_true]
    exact .effect rfl (Shape.acts_of_node (.inl rfl) hmem)
  | append _ hopening hclosing ih =>
    intro _
    exact .quiet (by decide) (.cons (ih rfl) (.word (changes_of_kind hopening (by decide))
      (.word (changes_of_kind hclosing (by decide)) .nil)))
  | index _ hopening hclosing _ ih ihinner =>
    intro _
    exact .quiet (by decide) (.cons (ih rfl) (.inBrackets (changes_of_kind hopening (by decide))
      (changes_of_kind hclosing (by decide)) (ihinner rfl)))
  | memberOf _ hop _ ih ihrow =>
    intro _
    refine .quiet ?_ (.cons (ih rfl) (.word (changes_of_table (by decide) hop) (ihrow rfl)))
    rcases kind_of_accessKind? hop with ⟨_, rfl⟩ | ⟨_, rfl⟩ <;> decide
  | step _ hop hstep _ =>
    intro _
    refine .effect rfl (Shape.acts_of_word (changes_of_step hop hstep) ?_)
    simp only [Shape.wordsOf_cons, Shape.words_node, Shape.words_word, List.mem_append,
      List.mem_singleton, true_or, or_true]
  | memberWord hname => exact fun _ => .word (changes_of_name hname) .nil
  | memberVariable hname =>
    intro _
    exact .quiet (by decide) (.word (changes_of_kind hname (by decide)) .nil)
  | memberBraces hopening hclosing _ ih =>
    intro _
    exact .inBrackets (changes_of_kind hopening (by decide)) (changes_of_kind hclosing (by decide))
      (ih rfl)
  | leading hop _ ih => exact fun _ => agrees_leading hop (ih rfl)
  | @assign _ _ op _ _ _ hop _ _ _ _ =>
    intro _
    have hchanges : op.changes = true := by
      unfold Word.changes
      rcases hop with hkind | hkind <;> rw [hkind] <;> rfl
    refine .effect rfl (Shape.acts_of_word hchanges ?_)
    simp only [Shape.wordsOf_cons, Shape.words_node, Shape.words_word, List.mem_append,
      List.mem_singleton, true_or, or_true]
  | short _ hquestion _ hcolon _ ih ihright =>
    intro _
    exact .quiet (by decide) (.cons (ih rfl) (.word (changes_of_kind hquestion (by decide))
      (.word (changes_of_kind hcolon (by decide)) (ihright rfl))))
  | ternary _ hquestion _ _ hcolon _ ih ihmiddle ihright =>
    intro _
    exact .quiet (by decide) (.cons (ih rfl) (.word (changes_of_kind hquestion (by decide))
      (.cons (ihmiddle rfl) (.word (changes_of_kind hcolon (by decide)) (ihright rfl)))))
  | binary _ hbinding _ _ ih ihright =>
    intro _
    refine .quiet ?_ (.cons (ih rfl) (.word (changes_of_binding? hbinding) (ihright rfl)))
    rcases kind_binding? hbinding with hkind | hkind <;> rw [hkind] <;> decide
  | element _ _ ih => exact fun _ => .quiet (by decide) (ih rfl)
  | keyed _ harrow _ ihkey ihvalue =>
    intro _
    exact .quiet (by decide) (.cons (ihkey rfl) (.word (changes_of_kind harrow (by decide))
      (ihvalue rfl)))
  -- Parameters are not parsed as expressions.
  | param | paramDefault => exact fun hsymbol => absurd hsymbol Bool.false_ne_true
  | none => exact fun _ => .nil
  | @last sort _ _ _ _ ih => exact fun hsymbol => ih (sort.inExpr_item.trans hsymbol)
  | @more sort _ _ _ _ _ hcomma _ ih ihrow =>
    intro hsymbol
    exact .cons (ih (sort.inExpr_item.trans hsymbol))
      (.word (changes_of_kind hcomma (by decide)) (ihrow hsymbol))

end Grammar

namespace Tree

variable {tree : Tree}

theorem isEffect_shape (tree : Tree) : tree.shape.isEffect = tree.isEffect := by
  have hfirst : tree.shape.words.find? (!·.kind.isTrivia) = tree.firstToken?.map Token.word := by
    rw [words_shape, List.find?_map, firstToken?, significant, List.head?_filter]
    rfl
  rw [Shape.isEffect, hfirst, kind_shape, isEffect]
  cases tree.firstToken? <;> rfl

/-- The test asks for a node that can change something. -/
theorem hasSideEffects_shape (tree : Tree) :
    tree.hasSideEffects = true ↔ Shape.HasEffect [tree.shape] := by
  rw [hasSideEffects, List.any_eq_true, Shape.HasEffect, Shape.nodesOf_cons, Shape.nodesOf_nil,
    List.append_nil, ← shape_subtrees]
  simp only [List.mem_map, exists_exists_and_eq_and, isEffect_shape]

theorem acts_shape (tree : Tree) : tree.Acts ↔ Shape.Acts [tree.shape] := by
  unfold Acts Shape.Acts
  rw [Shape.nodesOf_cons, Shape.nodesOf_nil, List.append_nil, ← shape_subtrees, Shape.wordsOf_cons,
    Shape.wordsOf_nil, List.append_nil, words_shape]
  simp only [List.mem_map, exists_exists_and_eq_and, kind_shape]

/-- The test is right about what is outside of strings. -/
theorem hasSideEffects_iff (h : Grammar.Standalone tree.shape) :
    tree.hasSideEffects = true ↔ tree.Acts := by
  rw [hasSideEffects_shape, acts_shape]
  exact (h _ Grammar.inert_none).agrees rfl

end Tree

/-! ## What runs in strings -/

namespace Literal

/-- The code of a stretch of a body, without its braces. -/
def Segment.code? : Segment → Option Text
  | .atom _ => none
  | .code text => some text.tail.dropLast

/-- The code in braces in a body. -/
def codes (body : Text) : List Text := (segments body).filterMap Segment.code?

end Literal

/-- The code in braces in a string: in double quotes and in a heredoc. -/
def Token.codes (tok : Token) : List Text :=
  match Quoting.ofKind? tok.kind with
  | some .double => (Literal.quotedInner '"' tok.text).toOption.elim [] Literal.codes
  | some .heredoc => (Literal.docBody tok.text).toOption.elim [] Literal.codes
  | _ => []

/-- The expression that a text is read as, if it is read as a statement of one expression and
    nothing is wrong with it. -/
def Parse.expression? (code : Text) : Option Node :=
  let parse := Parse.file (code ++ [';'])
  if parse.hasErrors then none
  else
    match parse.root.statements with
    | [stmt] => (stmt.cast? .exprStmt).bind Node.first?
    | _ => none

namespace Tree

/-- Whether an expression is code in a string of a tree, or in a string of such code. -/
inductive Embeds : Tree → Tree → Prop
  | string {tree : Tree} {tok : Token} {code : Text} {value : Node} (htok : tok ∈ tree.tokens)
      (hcode : code ∈ tok.codes) (hvalue : Parse.expression? code = some value) :
      Embeds tree value.tree
  | inner {tree inner : Tree} {tok : Token} {code : Text} {value : Node} (htok : tok ∈ tree.tokens)
      (hcode : code ∈ tok.codes) (hvalue : Parse.expression? code = some value)
      (hinner : Embeds value.tree inner) : Embeds tree inner

/-- Whether something is called, created, assigned or stepped in a tree or in its strings. -/
def Runs (tree : Tree) : Prop := tree.Acts ∨ ∃ code, tree.Embeds code ∧ code.Acts

end Tree

/-- A statement of an expression begins with the expression. -/
theorem Node.isExpr_of_exprStmt {stmt value : Node}
    (h : Grammar.Grammatical stmt.kind (stmt.elements.map Element.shape))
    (hkind : stmt.kind = .exprStmt) (hvalue : stmt.first? = some value) :
    value.kind.isExpr = true := by
  generalize hrow : stmt.elements.map Element.shape = row at h
  rw [hkind] at h
  cases h with
  | exprStmt hexpr _ =>
    rcases Element.node_of_map hrow hexpr.ne_word with ⟨inner, rest, helements, rfl, _⟩
    have hfirst : stmt.first? = some inner := by
      rw [first?, childNodes, helements]
      rfl
    rw [hfirst, Option.some.injEq] at hvalue
    rw [← hvalue]
    exact hexpr
  -- No other clause has a statement for its kind.
  | operand hoperand =>
    rcases Grammar.kind_of_operandKind? hoperand with ⟨_, hother⟩ | hother | hother | ⟨_, hother⟩
    all_goals exact Kind.noConfusion hother
  | namedMember _ hop _ | variableMember _ hop _ | computedMember _ hop _ _ _ =>
    rcases Grammar.kind_of_accessKind? hop with ⟨_, hother⟩ | ⟨_, hother⟩
    all_goals exact Kind.noConfusion hother
  | jumpStmt hkeyword _ | valueStmt hkeyword _ _ =>
    exact absurd (Grammar.mem_of_jumpKind? hkeyword) (by decide)

namespace Parse

/-- The expression that a text is read as is one of a text without diagnostics. -/
theorem standalone_of_expression? {code : Text} {value : Node} (h : expression? code = some value) :
    Grammar.Standalone value.tree.shape := by
  unfold expression? at h
  dsimp only at h
  split at h
  · exact absurd h.symm (Option.some_ne_none _)
  rename_i herrors
  have hclean : (file (code ++ [';'])).diagnostics = [] := by
    rw [hasErrors, Bool.not_eq_true', Bool.not_eq_false, List.isEmpty_iff] at herrors
    exact herrors
  split at h
  · rename_i stmt hstatements
    rcases Option.bind_eq_some_iff.mp h with ⟨stmt', hcast, hfirst⟩
    rcases Node.cast?_eq_some hcast with ⟨rfl, hkind⟩
    -- The statement is below the root, and the expression is below the statement.
    have hchild : stmt' ∈ (file (code ++ [';'])).root.childNodes := by
      have hmem : stmt' ∈ (file (code ++ [';'])).root.statements := by
        rw [hstatements]
        exact List.mem_singleton_self _
      exact List.mem_of_mem_filter hmem
    have hstmt := Node.mem_descendants_of_child (Node.mem_descendants.mpr List.mem_cons_self)
      (Node.mem_elements_of_childNodes hchild)
    have hvalue := Node.mem_descendants_of_child hstmt
      (Node.mem_elements_of_childNodes (List.mem_of_getElem? hfirst))
    exact standalone_of_expr hclean hvalue
      (Node.isExpr_of_exprStmt (grammatical_of_mem hclean hstmt) hkind hfirst)
  · exact absurd h.symm (Option.some_ne_none _)

end Parse

namespace Tree

variable {tree : Tree}

/-- Code in a string is an expression. -/
theorem Embeds.standalone {code : Tree} (h : tree.Embeds code) : Grammar.Standalone code.shape := by
  induction h with
  | string _ _ hvalue => exact Parse.standalone_of_expression? hvalue
  | inner _ _ _ _ ih => exact ih

/-- Code is embedded in some token. -/
theorem Embeds.exists_code {code : Tree} (h : tree.Embeds code) :
    ∃ tok ∈ tree.tokens, tok.codes ≠ [] := by
  cases h with
  | string htok hcode _ | inner htok hcode _ _ => exact ⟨_, htok, List.ne_nil_of_mem hcode⟩

/-- An expression runs something if the test says so of it or of code in its strings. -/
theorem runs_iff (h : Grammar.Standalone tree.shape) : tree.Runs ↔
    tree.hasSideEffects = true ∨ ∃ code, tree.Embeds code ∧ code.hasSideEffects = true := by
  unfold Runs
  rw [← hasSideEffects_iff h]
  refine or_congr_right (exists_congr fun code => and_congr_right fun hcode => ?_)
  exact (hasSideEffects_iff hcode.standalone).symm

/-- An expression that passes the test runs what the code in its strings does. -/
theorem runs_iff_of_idle (h : Grammar.Standalone tree.shape) (hidle : tree.hasSideEffects = false) :
    tree.Runs ↔ ∃ code, tree.Embeds code ∧ code.hasSideEffects = true := by
  rw [runs_iff h, hidle]
  simp only [Bool.false_eq_true, false_or]

/-- An access that may stand in a string passes the test. -/
theorem hasSideEffects_of_access (h : tree.exprClass = .memberOrIndexAccess) :
    tree.hasSideEffects = false := by
  unfold exprClass at h
  split at h
  case h_3 | h_4 =>
    by_cases hinterpolatable : tree.isInterpolatable = true
    · simp only [isInterpolatable, Bool.and_eq_true, Bool.not_eq_true'] at hinterpolatable
      exact hinterpolatable.2
    · rw [if_neg hinterpolatable] at h
      exact ExprClass.noConfusion h
  all_goals exact ExprClass.noConfusion h

end Tree

namespace Parse

variable {text : Text}

/-- What the test says about an expression is whether something is called, created, assigned or
    stepped in it outside of its strings. What runs is told by the test, asked of the expression and
    of the code in its strings at any depth. So an access, and the target of a conditional that is
    split, runs just what the code in its strings does. -/
theorem runs_iff_hasSideEffects (h : (file text).diagnostics = []) :
    (∀ node ∈ (file text).root.descendants, node.kind.isExpr = true →
      (node.tree.hasSideEffects = true ↔ node.tree.Acts) ∧
        (node.tree.Runs ↔ node.tree.hasSideEffects = true ∨
          ∃ code, node.tree.Embeds code ∧ code.hasSideEffects = true) ∧
        (node.tree.exprClass = .memberOrIndexAccess →
          (node.tree.Runs ↔ ∃ code, node.tree.Embeds code ∧ code.hasSideEffects = true))) ∧
      ∀ context found, context.parse = file text → TernaryAssignment.locate context = .ok found →
        (found.target.tree.Runs ↔
          ∃ code, found.target.tree.Embeds code ∧ code.hasSideEffects = true) := by
  constructor
  · intro node hnode hexpr
    have hstandalone := standalone_of_expr h hnode hexpr
    exact ⟨Tree.hasSideEffects_iff hstandalone, Tree.runs_iff hstandalone,
      fun haccess => Tree.runs_iff_of_idle hstandalone (Tree.hasSideEffects_of_access haccess)⟩
  -- A target that is offered stands for itself, and it was asked for its effects.
  · intro context found hparse hlocate
    have hfits := TernaryAssignment.fits_of_locate h hparse hlocate
    exact Tree.runs_iff_of_idle
      (hfits.standalone found.target (List.mem_cons_of_mem _ List.mem_cons_self))
      (TernaryAssignment.target_of_locate hlocate).1

/-- A call of a function with an access for its argument. Only the call runs something. -/
theorem runs_iff_hasSideEffects_argument :
    (file "f($a->b);".toList).diagnostics = [] ∧
      ∃ call ∈ (file "f($a->b);".toList).root.descendants,
        ∃ access ∈ (file "f($a->b);".toList).root.descendants,
          call.kind = .callExpr ∧ call.tree.Runs ∧
            access.tree.exprClass = .memberOrIndexAccess ∧ ¬ access.tree.Runs := by
  obtain ⟨hclean, hcall, haccess⟩ :
      (file "f($a->b);".toList).diagnostics = [] ∧
      (file "f($a->b);".toList).root.descendants[2]?.any (fun (node : Node) =>
        node.kind == .callExpr && node.tree.hasSideEffects) = true ∧
      (file "f($a->b);".toList).root.descendants[5]?.any (fun (node : Node) =>
        node.kind == .memberExpr && (node.tree.exprClass == .memberOrIndexAccess &&
        node.tree.tokens.all fun tok => tok.codes == [])) = true := by
    decide +kernel
  rcases (Option.any_eq_true _ _).mp hcall with ⟨call, hget, hcall⟩
  rcases (Option.any_eq_true _ _).mp haccess with ⟨access, hget', haccess⟩
  simp only [Bool.and_eq_true, beq_iff_eq, List.all_eq_true] at hcall haccess
  have hmem := List.mem_of_getElem? hget
  have hmem' := List.mem_of_getElem? hget'
  rcases (runs_iff_hasSideEffects hclean).1 call hmem (by rw [hcall.1]; rfl) with ⟨_, hruns, _⟩
  rcases (runs_iff_hasSideEffects hclean).1 access hmem' (by rw [haccess.1]; rfl) with
    ⟨_, _, hquiet⟩
  refine ⟨hclean, call, hmem, access, hmem', hcall.1, hruns.mpr (.inl hcall.2), haccess.2.1, ?_⟩
  intro hacts
  -- No token of the access has code in it.
  rcases (hquiet haccess.2.1).mp hacts with ⟨code, hcode, _⟩
  rcases hcode.exists_code with ⟨tok, htok, hne⟩
  exact hne (haccess.2.2 tok htok)

/-- A conditional that is assigned to an element of an array is split. The index of the element is a
    string with a call in it, which the test does not see: the target is taken for an access, and it
    calls a function. -/
theorem runs_of_access :
    (file "<?php $a[\"\x7b$b[f()]\x7d\"] = $c ? 1 : 2;".toList).diagnostics = [] ∧
      ∃ found,
        TernaryAssignment.locate
          ⟨file "<?php $a[\"\x7b$b[f()]\x7d\"] = $c ? 1 : 2;".toList, 27, .default⟩ = .ok found ∧
        found.target ∈
          (file "<?php $a[\"\x7b$b[f()]\x7d\"] = $c ? 1 : 2;".toList).root.descendants ∧
        found.target.tree.exprClass = .memberOrIndexAccess ∧
        found.target.tree.hasSideEffects = false ∧ found.target.tree.Runs := by
  generalize htext : "<?php $a[\"\x7b$b[f()]\x7d\"] = $c ? 1 : 2;".toList = text
  obtain ⟨hclean, hfound⟩ :
      (file text).diagnostics = [] ∧
      (TernaryAssignment.locate ⟨file text, 27, .default⟩).toOption.any (fun found =>
        found.target.tree.exprClass == .memberOrIndexAccess &&
        found.target.tree.tokens.any fun tok => tok.kind == .doubleQuotedString &&
          tok.text == "\"\x7b$b[f()]\x7d\"".toList) = true := by
    rw [← htext]
    decide +kernel
  rcases eq_ok_of_any hfound with ⟨found, hlocate, htarget⟩
  rw [Bool.and_eq_true, beq_iff_eq, List.any_eq_true] at htarget
  rcases htarget with ⟨hclass, tok, htok, hstring⟩
  rw [Bool.and_eq_true, beq_iff_eq, beq_iff_eq] at hstring
  -- The string is code from one end to the other.
  have hcodes : tok.codes = ["$b[f()]".toList] := by
    have hsegments : Literal.segments "\x7b$b[f()]\x7d".toList =
        [.code "\x7b$b[f()]\x7d".toList] :=
      Literal.segments_code (by decide) (by decide) (by decide) (by decide)
    have hcode : Literal.codes "\x7b$b[f()]\x7d".toList = ["$b[f()]".toList] := by
      rw [Literal.codes, hsegments]
      rfl
    rw [← hcode, Token.codes, hstring.1, hstring.2]
    rfl
  have hvalue : (expression? "$b[f()]".toList).any
      (fun value => value.tree.hasSideEffects) = true := by
    decide +kernel
  rcases (Option.any_eq_true _ _).mp hvalue with ⟨value, hread, heffects⟩
  have hacts := (Tree.hasSideEffects_iff (standalone_of_expression? hread)).mp heffects
  have hembeds := Tree.Embeds.string htok (hcodes ▸ List.mem_singleton_self _) hread
  have hfits := TernaryAssignment.fits_of_locate hclean rfl hlocate
  exact ⟨hclean, found, hlocate, hfits.members _ (by simp only [List.mem_cons, true_or, or_true]),
    hclass, Tree.hasSideEffects_of_access hclass, .inr ⟨_, hembeds, hacts⟩⟩

end Parse

end PhpAssist

import PhpAssist.Proofs.Productions

/-!
# What each kind of node is made of

The grammar as a relation says which rows are derived in front of which word. Who uses a tree asks
for less: which children a node of some kind has, and in which order. `Grammatical` is that list, a
clause for each form that a kind of node has, and it speaks about the children only by their kinds.
A node with a part too few or too many is in none of its clauses, and neither is a node for text
that fits nowhere or one that was never given a kind.

Every rule of the grammar makes a node of the list. The expressions need an induction, because a
rule such as the one for operands passes a node on as it is; for all other nodes the rule that made
them has the parts at hand.

## Main definitions

* `Shape.IsExpr`, `Shape.IsStmt`, `Shape.IsNode`: The kinds of parts that a node may ask for.
* `Grammar.Listed`, `Grammar.Separated`: Rows with commas, with one at the end or not.
* `Grammar.Grammatical`: The children of a node, by its kind.

## Theorems

* `Grammar.Production.grammatical`: Every node that a rule makes has the children of its kind.
* `Grammar.DerivesFile.grammatical`: So has the root of a file.
* `Grammar.Grammatical.kind_ne`: Which kinds no node of the list has.
* `Grammar.Grammatical.known`: No word among the children begins no token.
-/

namespace PhpAssist

namespace Shape

/-- Whether a shape is an expression. -/
def IsExpr : Shape → Prop
  | .word _ => False
  | .node kind _ => kind.isExpr = true

/-- Whether a shape is a statement. -/
def IsStmt : Shape → Prop
  | .word _ => False
  | .node kind _ => kind.isStatement = true

/-- Whether a shape is a node of a kind. -/
def IsNode (wanted : Kind) : Shape → Prop
  | .word _ => False
  | .node kind _ => kind = wanted

end Shape

namespace Grammar

open Shape (IsExpr IsStmt IsNode)

/-- Items with a comma behind each of them, and behind the last one or not. -/
inductive Listed (p : Shape → Prop) : List Shape → Prop
  | none : Listed p []
  | last {item : Shape} (hitem : p item) : Listed p [item]
  | more {item : Shape} {comma : Word} {row : List Shape} (hitem : p item)
      (hcomma : comma.kind = .comma) (hrow : Listed p row) :
      Listed p (item :: .word comma :: row)

/-- Items with a comma between each two of them. -/
inductive Separated (p : Shape → Prop) : List Shape → Prop
  | one {item : Shape} (hitem : p item) : Separated p [item]
  | more {item : Shape} {comma : Word} {row : List Shape} (hitem : p item)
      (hcomma : comma.kind = .comma) (hrow : Separated p row) :
      Separated p (item :: .word comma :: row)

/-- The names behind the first one in a union. -/
inductive Barred : List Shape → Prop
  | none : Barred []
  | more {bar name : Word} {row : List Shape} (hbar : bar.isText .operator "|" = true)
      (hname : name.kind = .name) (hrow : Barred row) : Barred (.word bar :: .word name :: row)

/-- An expression in parentheses. -/
inductive Bracketed : List Shape → Prop
  | mk {opening closing : Word} {inner : Shape} (hopening : opening.kind = .leftParen)
      (hinner : IsExpr inner) (hclosing : closing.kind = .rightParen) :
      Bracketed [.word opening, inner, .word closing]

/-- A part in the head of a `for` loop: no expressions or some, and a terminator. -/
inductive Section (terminator : Kind) : List Shape → Prop
  | empty {stop : Word} (hstop : stop.kind = terminator) : Section terminator [.word stop]
  | exprs {stop : Word} {row : List Shape} (hrow : Separated IsExpr row)
      (hstop : stop.kind = terminator) : Section terminator (row ++ [.word stop])

/-- The variable of a parameter or the name of a function: a word of a kind, behind a `&` or not. -/
inductive Marked (kind : Kind) : List Shape → Prop
  | plain {name : Word} (hname : name.kind = kind) : Marked kind [.word name]
  | marked {mark name : Word} (hmark : mark.isText .operator "&" = true)
      (hname : name.kind = kind) : Marked kind [.word mark, .word name]

/-- A part that may be missing. -/
inductive AtMostOne (p : Shape → Prop) : List Shape → Prop
  | none : AtMostOne p []
  | one {part : Shape} (hpart : p part) : AtMostOne p [part]

/-- A part behind a word of a kind, if there is one. -/
inductive Introduced (kind : Kind) (p : Shape → Prop) : List Shape → Prop
  | none : Introduced kind p []
  | one {word : Word} {part : Shape} (hword : word.kind = kind) (hpart : p part) :
      Introduced kind p [.word word, part]

/-- The tag that opens a file, if there is one. -/
inductive Tagged : List Shape → Prop
  | bare : Tagged []
  | tag {word : Word} (hword : word.kind = .openTag) : Tagged [.word word]

/-- The children of a node by its kind, told by their own kinds. -/
inductive Grammatical : Kind → List Shape → Prop
  -- Operands.
  | operand {tok : Word} {kind : Kind} (hkind : operandKind? tok.kind = some kind) :
      Grammatical kind [.word tok]
  | parenExpr {row : List Shape} (hrow : Bracketed row) : Grammatical .parenExpr row
  | arrayExpr {opening closing : Word} {row : List Shape} (hopening : opening.kind = .leftBracket)
      (hrow : Listed (IsNode .arrayItem) row) (hclosing : closing.kind = .rightBracket) :
      Grammatical .arrayExpr (.word opening :: (row ++ [.word closing]))
  | arrayItem {value : Shape} (hvalue : IsExpr value) : Grammatical .arrayItem [value]
  | keyedItem {arrow : Word} {key value : Shape} (hkey : IsExpr key)
      (harrow : arrow.kind = .fatArrow)
      (hvalue : IsExpr value) : Grammatical .arrayItem [key, .word arrow, value]
  | newExpr {keyword : Word} {name : Shape} {row : List Shape} (hkeyword : keyword.kind = .newKw)
      (hname : IsNode .nameRef name ∨ IsNode .variable name)
      (hrow : AtMostOne (IsNode .argList) row) :
      Grammatical .newExpr (.word keyword :: name :: row)
  -- Calls, indexes and accesses.
  | callExpr {callee list : Shape} (hcallee : IsExpr callee) (hlist : IsNode .argList list) :
      Grammatical .callExpr [callee, list]
  | argList {opening closing : Word} {row : List Shape} (hopening : opening.kind = .leftParen)
      (hrow : Listed IsExpr row) (hclosing : closing.kind = .rightParen) :
      Grammatical .argList (.word opening :: (row ++ [.word closing]))
  | appendExpr {opening closing : Word} {base : Shape} (hbase : IsExpr base)
      (hopening : opening.kind = .leftBracket) (hclosing : closing.kind = .rightBracket) :
      Grammatical .indexExpr [base, .word opening, .word closing]
  | indexExpr {opening closing : Word} {base index : Shape} (hbase : IsExpr base)
      (hopening : opening.kind = .leftBracket) (hindex : IsExpr index)
      (hclosing : closing.kind = .rightBracket) :
      Grammatical .indexExpr [base, .word opening, index, .word closing]
  | namedMember {op name : Word} {base : Shape} {kind : Kind} (hbase : IsExpr base)
      (hop : accessKind? op.kind = some kind)
      (hname : name.kind = .name ∨ name.kind.isKeyword = true) :
      Grammatical kind [base, .word op, .word name]
  | variableMember {op : Word} {base name : Shape} {kind : Kind} (hbase : IsExpr base)
      (hop : accessKind? op.kind = some kind) (hname : IsNode .variable name) :
      Grammatical kind [base, .word op, name]
  | computedMember {op opening closing : Word} {base inner : Shape} {kind : Kind}
      (hbase : IsExpr base) (hop : accessKind? op.kind = some kind)
      (hopening : opening.kind = .leftBrace) (hinner : IsExpr inner)
      (hclosing : closing.kind = .rightBrace) :
      Grammatical kind [base, .word op, .word opening, inner, .word closing]
  -- Operators.
  | prefixExpr {op : Word} {inner : Shape} (hop : isLeading op = true) (hinner : IsExpr inner) :
      Grammatical .prefixExpr [.word op, inner]
  | postfixExpr {op : Word} {inner : Shape} (hinner : IsExpr inner) (hop : op.kind = .operator)
      (hstep : op.text = ['+', '+'] ∨ op.text = ['-', '-']) :
      Grammatical .postfixExpr [inner, .word op]
  | assignExpr {op : Word} {target value : Shape} (htarget : IsExpr target)
      (hassignable : isAssignable target.kind = true)
      (hop : op.kind = .equals ∨ op.kind = .assignOp) (hvalue : IsExpr value) :
      Grammatical .assignExpr [target, .word op, value]
  | concatExpr {op : Word} {left right : Shape} (hleft : IsExpr left) (hop : op.kind = .dot)
      (hright : IsExpr right) : Grammatical .concatExpr [left, .word op, right]
  | binaryExpr {op : Word} {left right : Shape} (hleft : IsExpr left) (hop : op.kind = .operator)
      (hbinding : (binding? .operator op.text).isSome = true) (hright : IsExpr right) :
      Grammatical .binaryExpr [left, .word op, right]
  | shortTernaryExpr {question colon : Word} {condition whenFalse : Shape}
      (hcondition : IsExpr condition) (hquestion : question.kind = .question)
      (hcolon : colon.kind = .colon) (hfalse : IsExpr whenFalse) :
      Grammatical .ternaryExpr [condition, .word question, .word colon, whenFalse]
  | ternaryExpr {question colon : Word} {condition whenTrue whenFalse : Shape}
      (hcondition : IsExpr condition) (hquestion : question.kind = .question)
      (htrue : IsExpr whenTrue) (hcolon : colon.kind = .colon) (hfalse : IsExpr whenFalse) :
      Grammatical .ternaryExpr [condition, .word question, whenTrue, .word colon, whenFalse]
  -- Statements.
  | block {opening closing : Word} {row : List Shape} (hopening : opening.kind = .leftBrace)
      (hrow : ∀ item ∈ row, IsStmt item) (hclosing : closing.kind = .rightBrace) :
      Grammatical .block (.word opening :: (row ++ [.word closing]))
  | exprStmt {stop : Word} {value : Shape} (hvalue : IsExpr value)
      (hstop : stop.kind = .semicolon) :
      Grammatical .exprStmt [value, .word stop]
  | echoStmt {keyword stop : Word} {row : List Shape} (hkeyword : keyword.kind = .echoKw)
      (hrow : Separated IsExpr row) (hstop : stop.kind = .semicolon) :
      Grammatical .echoStmt (.word keyword :: (row ++ [.word stop]))
  | jumpStmt {keyword stop : Word} {kind : Kind} (hkeyword : jumpKind? keyword.kind = some kind)
      (hstop : stop.kind = .semicolon) : Grammatical kind [.word keyword, .word stop]
  | valueStmt {keyword stop : Word} {kind : Kind} {value : Shape}
      (hkeyword : jumpKind? keyword.kind = some kind) (hvalue : IsExpr value)
      (hstop : stop.kind = .semicolon) : Grammatical kind [.word keyword, value, .word stop]
  | emptyStmt {stop : Word} (hstop : stop.kind = .semicolon) : Grammatical .emptyStmt [.word stop]
  | ifStmt {keyword : Word} {guard clauses otherwise : List Shape} {body : Shape}
      (hkeyword : keyword.kind = .ifKw) (hguard : Bracketed guard) (hbody : IsStmt body)
      (hclauses : ∀ clause ∈ clauses, IsNode .elseifClause clause)
      (hotherwise : AtMostOne (IsNode .elseClause) otherwise) :
      Grammatical .ifStmt (.word keyword :: (guard ++ body :: (clauses ++ otherwise)))
  | elseifClause {keyword : Word} {guard : List Shape} {body : Shape}
      (hkeyword : keyword.kind = .elseifKw) (hguard : Bracketed guard) (hbody : IsStmt body) :
      Grammatical .elseifClause (.word keyword :: (guard ++ [body]))
  | elseClause {keyword : Word} {body : Shape} (hkeyword : keyword.kind = .elseKw)
      (hbody : IsStmt body) : Grammatical .elseClause [.word keyword, body]
  | whileStmt {keyword : Word} {guard : List Shape} {body : Shape}
      (hkeyword : keyword.kind = .whileKw) (hguard : Bracketed guard) (hbody : IsStmt body) :
      Grammatical .whileStmt (.word keyword :: (guard ++ [body]))
  | doWhileStmt {keyword again stop : Word} {guard : List Shape} {body : Shape}
      (hkeyword : keyword.kind = .doKw) (hbody : IsStmt body) (hagain : again.kind = .whileKw)
      (hguard : Bracketed guard) (hstop : stop.kind = .semicolon) :
      Grammatical .doWhileStmt (.word keyword :: body :: .word again :: (guard ++ [.word stop]))
  | forStmt {keyword opening : Word} {first second third : List Shape} {body : Shape}
      (hkeyword : keyword.kind = .forKw) (hopening : opening.kind = .leftParen)
      (hfirst : Section .semicolon first) (hsecond : Section .semicolon second)
      (hthird : Section .rightParen third) (hbody : IsStmt body) :
      Grammatical .forStmt
        (.word keyword :: .word opening :: (first ++ second ++ third ++ [body]))
  | foreachStmt {keyword opening separator closing : Word} {subject target body : Shape}
      (hkeyword : keyword.kind = .foreachKw) (hopening : opening.kind = .leftParen)
      (hsubject : IsExpr subject) (hseparator : separator.kind = .asKw) (htarget : IsExpr target)
      (hclosing : closing.kind = .rightParen) (hbody : IsStmt body) :
      Grammatical .foreachStmt [.word keyword, .word opening, subject, .word separator, target,
        .word closing, body]
  | keyedForeachStmt {keyword opening separator arrow closing : Word}
      {subject key target body : Shape} (hkeyword : keyword.kind = .foreachKw)
      (hopening : opening.kind = .leftParen) (hsubject : IsExpr subject)
      (hseparator : separator.kind = .asKw) (hkey : IsExpr key) (harrow : arrow.kind = .fatArrow)
      (htarget : IsExpr target) (hclosing : closing.kind = .rightParen) (hbody : IsStmt body) :
      Grammatical .foreachStmt [.word keyword, .word opening, subject, .word separator, key,
        .word arrow, target, .word closing, body]
  -- Functions.
  | functionDef {keyword : Word} {name result : List Shape} {list body : Shape}
      (hkeyword : keyword.kind = .functionKw) (hname : Marked .name name)
      (hlist : IsNode .paramList list)
      (hresult : Introduced .colon (IsNode .typeRef) result) (hbody : IsNode .block body) :
      Grammatical .functionDef (.word keyword :: (name ++ list :: (result ++ [body])))
  | paramList {opening closing : Word} {row : List Shape} (hopening : opening.kind = .leftParen)
      (hrow : Listed (IsNode .param) row) (hclosing : closing.kind = .rightParen) :
      Grammatical .paramList (.word opening :: (row ++ [.word closing]))
  | param {type var value : List Shape}
      (htype : AtMostOne (IsNode .typeRef) type) (hvar : Marked .variableName var)
      (hvalue : Introduced .equals IsExpr value) : Grammatical .param (type ++ var ++ value)
  | typeRef {name : Word} {row : List Shape} (hname : name.kind = .name) (hrow : Barred row) :
      Grammatical .typeRef (.word name :: row)
  | optionalTypeRef {mark name : Word} {row : List Shape} (hmark : mark.kind = .question)
      (hname : name.kind = .name) (hrow : Barred row) :
      Grammatical .typeRef (.word mark :: .word name :: row)
  -- Files.
  | sourceFile {stop : Word} {tag row : List Shape}
      (htag : Tagged tag) (hrow : ∀ item ∈ row, IsStmt item)
      (hstop : stop.kind = .endOfFile) :
      Grammatical .sourceFile (tag ++ row ++ [.word stop])

/-! ## From rules to children -/

theorem Standalone.isExpr_shape {shape : Shape} (h : Standalone shape) : IsExpr shape := by
  rcases h.exists_node with ⟨kind, row, rfl⟩
  exact h.isExpr

theorem Derives.isExpr_shape {symbol : Symbol} {look : Option Word} {shape : Shape}
    (h : Derives symbol look [shape]) (hsymbol : symbol.isExpr = true) : IsExpr shape :=
  (h.standalone hsymbol).isExpr_shape

theorem Derives.isExpr_value {least : Nat} {look : Option Word} {shape : Shape}
    (h : Derives (.expr least) look [shape]) : IsExpr shape :=
  h.isExpr_shape rfl

theorem DerivesStmt.isStmt {look : Option Word} {shape : Shape}
    (h : DerivesStmt .stmt look [shape]) : IsStmt shape := by
  have hjump {keyword kind : Kind} (h : jumpKind? keyword = some kind) :
      kind.isStatement = true := by
    have hmem := mem_of_jumpKind? h
    simp only [List.mem_cons, List.not_mem_nil, or_false] at hmem
    rcases hmem with rfl | rfl | rfl <;> rfl
  cases h with
  | jump hkeyword _ => exact hjump hkeyword
  | jumpWith hkeyword _ _ => exact hjump hkeyword
  | loop hkeyword _ _ =>
    have hmem := mem_of_loopKind? hkeyword
    simp only [List.mem_cons, List.not_mem_nil, or_false] at hmem
    rcases hmem with rfl | rfl | rfl <;> rfl
  | block | expr | echo | choice | doWhile | function | empty => rfl

theorem DerivesStmt.isStmt_of_mem {look : Option Word} {row : List Shape}
    (h : DerivesStmt .stmts look row) : ∀ shape ∈ row, IsStmt shape := by
  generalize hpart : Part.stmts = part at h
  induction h with
  | nil => exact fun shape hshape => absurd hshape List.not_mem_nil
  | cons hfirst _ _ ih =>
    intro shape hshape
    rcases List.mem_cons.mp hshape with rfl | hshape
    · exact hfirst.isStmt
    · exact ih rfl shape hshape
  | _ => exact absurd hpart (by simp only [reduceCtorEq, not_false_eq_true])

/-- What a list between brackets lists. -/
def ListSort.Item : ListSort → Shape → Prop
  | .argument => IsExpr
  | .element => IsNode .arrayItem
  | .parameter => IsNode .param

theorem Derives.item {sort : ListSort} {look : Option Word} {shape : Shape}
    (h : Derives (.item sort) look [shape]) : sort.Item shape := by
  cases h with
  | argument hvalue => exact hvalue.isExpr_value
  | element | keyed | param | paramDefault => rfl

theorem Derives.listed {sort : ListSort} {look : Option Word} {row : List Shape}
    (h : Derives (.items sort) look row) : Listed sort.Item row := by
  generalize hsymbol : Symbol.items sort = symbol at h
  induction h with
  | none => exact .none
  | last hitem _ _ =>
    rw [Symbol.items.injEq] at hsymbol
    exact .last (hsymbol ▸ hitem.item)
  | more hitem hcomma _ _ ih =>
    rw [Symbol.items.injEq] at hsymbol
    exact .more (hsymbol ▸ hitem.item) hcomma (ih (congrArg Symbol.items hsymbol))
  | _ => exact absurd hsymbol (by simp only [reduceCtorEq, not_false_eq_true])

theorem Exprs.separated {look : Option Word} {row : List Shape} (h : Exprs look row) :
    Separated IsExpr row := by
  induction h with
  | one hvalue _ => exact .one hvalue.isExpr_value
  | more hvalue hcomma _ ih => exact .more hvalue.isExpr_value hcomma ih

theorem UnionMembers.barred {look : Option Word} {row : List Shape} (h : UnionMembers look row) :
    Barred row := by
  induction h with
  | done => exact .none
  | more hbar hname _ ih => exact .more hbar hname ih

theorem Guard.bracketed {row : List Shape} (h : Guard row) : Bracketed row := by
  cases h with
  | mk hopening hclosing hinner => exact .mk hopening hinner.isExpr_value hclosing

theorem ForPart.section {terminator : Kind} {row : List Shape} (h : ForPart terminator row) :
    Section terminator row := by
  cases h with
  | empty hstop => exact .empty hstop
  | exprs hrow hstop => exact .exprs hrow.separated hstop

theorem TypeShape.isNode {look : Option Word} {type : Shape} (h : TypeShape look type) :
    IsNode .typeRef type := by
  cases h <;> rfl

theorem ParamVariable.isMarked {row : List Shape} (h : ParamVariable row) :
    Marked .variableName row := by
  cases h with
  | plain hvar => exact .plain hvar
  | marked hmark hvar => exact .marked hmark hvar

theorem FunctionName.isMarked {row : List Shape} (h : FunctionName row) : Marked .name row := by
  cases h with
  | plain hname => exact .plain hname
  | marked hmark hname => exact .marked hmark hname

theorem TypeShape.grammatical {look : Option Word} {kind : Kind} {row : List Shape}
    (h : TypeShape look (.node kind row)) : Grammatical kind row := by
  cases h with
  | plain hname hrow => exact .typeRef hname hrow.barred
  | optional hmark hname hrow => exact .optionalTypeRef hmark hname hrow.barred

theorem ParamName.grammatical {row value : List Shape} (h : ParamName row)
    (hvalue : Introduced .equals IsExpr value) : Grammatical .param (row ++ value) := by
  cases h with
  | untyped hrow => exact .param .none hrow.isMarked hvalue
  | typed hrow htype => exact .param (.one htype.isNode) hrow.isMarked hvalue

/-- An operation of the table is a concatenation or has an operator. -/
theorem grammatical_binding {op : Word} {left right : Shape} {binding : Binding}
    (hbinding : binding? op.kind op.text = some binding) (hleft : IsExpr left)
    (hright : IsExpr right) : Grammatical binding.kind [left, .word op, right] := by
  rcases kind_of_binding? hbinding with hop | hop
  · rw [hop] at hbinding
    have hconcat : binding = ⟨25, 26, .concatExpr⟩ := (Option.some.inj hbinding).symm
    rw [hconcat]
    exact .concatExpr hleft hop hright
  · rw [hop] at hbinding
    have hkind : binding.kind = .binaryExpr := by
      rcases Option.map_eq_some_iff.mp hbinding with ⟨entry, _, heq⟩
      rw [← heq]
    rw [hkind]
    exact .binaryExpr hleft hop (Option.isSome_of_eq_some hbinding) hright

theorem isNode_className {name : Word} {kind : Kind} {row : List Shape}
    (h : classKind? name.kind = some kind) :
    IsNode .nameRef (.node kind row) ∨ IsNode .variable (.node kind row) := by
  rcases kind_of_classKind? h with ⟨_, rfl⟩ | ⟨_, rfl⟩
  · exact .inl rfl
  · exact .inr rfl

/-- An expression has the children of its kind. The induction is on the rules that pass a node on
    as it is. -/
theorem Derives.grammatical {symbol : Symbol} {look : Option Word} {row : List Shape}
    (h : Derives symbol look row) : ∀ kind children, row = [.node kind children] →
      symbol.isExpr = true → Grammatical kind children := by
  induction h with
  | token hkind =>
    rintro kind children ⟨⟩ _
    exact .operand hkind
  | paren hopening hclosing hinner _ =>
    rintro kind children ⟨⟩ _
    exact .parenExpr (.mk hopening hinner.isExpr_value hclosing)
  | array hopening hclosing hrow _ =>
    rintro kind children ⟨⟩ _
    exact .arrayExpr hopening hrow.listed hclosing
  | new hkeyword hname _ =>
    rintro kind children ⟨⟩ _
    exact .newExpr hkeyword (isNode_className hname) .none
  | newWith hkeyword hname _ _ _ _ =>
    rintro kind children ⟨⟩ _
    exact .newExpr hkeyword (isNode_className hname) (.one rfl)
  -- A production that only passes the expression on.
  | access _ ih | operand _ _ ih | operation _ ih | expr _ _ ih =>
    exact fun kind children hrow _ => ih kind children hrow rfl
  | call hbase _ _ _ _ _ =>
    rintro kind children ⟨⟩ _
    exact .callExpr (hbase.isExpr_shape rfl) rfl
  | append hbase hopening hclosing _ =>
    rintro kind children ⟨⟩ _
    exact .appendExpr (hbase.isExpr_shape rfl) hopening hclosing
  | index hbase hopening hclosing hinner _ _ =>
    rintro kind children ⟨⟩ _
    exact .indexExpr (hbase.isExpr_shape rfl) hopening hinner.isExpr_value hclosing
  -- The clause is told by what stands behind the arrow.
  | memberOf hbase hop hrow _ _ =>
    rintro kind children ⟨⟩ _
    have hbase := hbase.isExpr_shape rfl
    cases hrow with
    | memberWord hname => exact .namedMember hbase hop hname
    | memberVariable hname => exact .variableMember hbase hop rfl
    | memberBraces hopening hclosing hinner =>
      exact .computedMember hbase hop hopening hinner.isExpr_value hclosing
  | step hbase hop hstep _ =>
    rintro kind children ⟨⟩ _
    exact .postfixExpr (hbase.isExpr_shape rfl) hop hstep
  | leading hop hinner _ =>
    rintro kind children ⟨⟩ _
    exact .prefixExpr hop hinner.isExpr_value
  | assign hleft hop htarget hright _ _ =>
    rintro kind children ⟨⟩ _
    exact .assignExpr (hleft.isExpr_shape rfl) htarget hop hright.isExpr_value
  | short hleft hquestion _ hcolon hright _ _ =>
    rintro kind children ⟨⟩ _
    exact .shortTernaryExpr (hleft.isExpr_shape rfl) hquestion hcolon hright.isExpr_value
  | ternary hleft hquestion _ hmiddle hcolon hright _ _ _ =>
    rintro kind children ⟨⟩ _
    exact .ternaryExpr (hleft.isExpr_shape rfl) hquestion hmiddle.isExpr_value hcolon
      hright.isExpr_value
  | binary hleft hbinding _ hright _ _ =>
    rintro kind children ⟨⟩ _
    exact grammatical_binding hbinding (hleft.isExpr_shape rfl) hright.isExpr_value
  -- No rows of expressions.
  | memberWord | memberVariable | memberBraces | argument | element | keyed | param |
      paramDefault | none | last | more =>
    intro _ _ _ hsymbol
    exact absurd hsymbol Bool.false_ne_true

theorem Standalone.grammatical {kind : Kind} {row : List Shape}
    (h : Standalone (.node kind row)) : Grammatical kind row :=
  (h _ inert_none).grammatical kind row rfl rfl

theorem DerivesStmt.exists_clauses {look : Option Word} {row : List Shape}
    (h : DerivesStmt .branches look row) : ∃ clauses otherwise, row = clauses ++ otherwise ∧
      (∀ clause ∈ clauses, IsNode .elseifClause clause) ∧
      AtMostOne (IsNode .elseClause) otherwise := by
  generalize hpart : Part.branches = part at h
  induction h with
  | noBranch => exact ⟨[], [], rfl, fun _ h => absurd h List.not_mem_nil, .none⟩
  -- An `elseif` comes ahead of whatever the rest has.
  | elseif _ _ _ _ _ ih =>
    rcases ih rfl with ⟨clauses, otherwise, rfl, hclauses, hotherwise⟩
    refine ⟨_ :: clauses, otherwise, rfl, fun clause hclause => ?_, hotherwise⟩
    rcases List.mem_cons.mp hclause with rfl | hclause
    · rfl
    · exact hclauses clause hclause
  | otherwise => exact ⟨[], [_], rfl, fun _ h => absurd h List.not_mem_nil, .one rfl⟩
  | _ => exact absurd hpart (by simp only [reduceCtorEq, not_false_eq_true])

/-- A loop has the children of its kind. -/
theorem LoopHead.grammatical {keyword : Word} {kind : Kind} {head : List Shape} {body : Shape}
    (h : LoopHead kind head) (hkeyword : loopKind? keyword.kind = some kind) (hbody : IsStmt body) :
    Grammatical kind (.word keyword :: (head ++ [body])) := by
  have hkinds := keyword_of_loopKind? hkeyword
  -- The head fits one keyword only.
  cases h with
  | whileHead hrow =>
    simp only [reduceCtorEq, and_true, and_false, or_false] at hkinds
    exact .whileStmt hkinds hrow.bracketed hbody
  | forHead hopening hfirst hsecond hthird =>
    simp only [reduceCtorEq, and_true, and_false, or_false, false_or] at hkinds
    exact .forStmt hkinds hopening hfirst.section hsecond.section hthird.section hbody
  | eachHead hopening hsubject hseparator htarget hclosing =>
    simp only [reduceCtorEq, and_true, and_false, false_or] at hkinds
    cases htarget with
    | value hvalue _ =>
      exact .foreachStmt hkinds hopening hsubject.isExpr_value hseparator hvalue.isExpr_value
        hclosing hbody
    | keyed hkey harrow hvalue =>
      exact .keyedForeachStmt hkinds hopening hsubject.isExpr_value hseparator hkey.isExpr_value
        harrow hvalue.isExpr_value hclosing hbody

theorem DerivesStmt.grammatical {look : Option Word} {kind : Kind} {row : List Shape}
    (h : DerivesStmt .stmt look [.node kind row]) : Grammatical kind row := by
  cases h with
  | block hopening hclosing hrow => exact .block hopening hrow.isStmt_of_mem hclosing
  | expr hstop hvalue => exact .exprStmt hvalue.isExpr_value hstop
  | echo hkeyword hrow hstop => exact .echoStmt hkeyword hrow.separated hstop
  | jump hkeyword hstop => exact .jumpStmt hkeyword hstop
  | jumpWith hkeyword hvalue hstop => exact .valueStmt hkeyword hvalue.isExpr_value hstop
  | choice hkeyword hguard hbody hrow =>
    rcases hrow.exists_clauses with ⟨clauses, otherwise, rfl, hclauses, hotherwise⟩
    exact .ifStmt hkeyword hguard.bracketed hbody.isStmt hclauses hotherwise
  | loop hkeyword hhead hbody => exact hhead.grammatical hkeyword hbody.isStmt
  | doWhile hkeyword hbody hwhile hguard hstop =>
    exact .doWhileStmt hkeyword hbody.isStmt hwhile hguard.bracketed hstop
  -- The result type is the one part of the head that may be missing.
  | function hkeyword hhead hopening hclosing hrow =>
    cases hhead with
    | mk hname _ _ _ hresult =>
      rw [List.append_assoc, List.cons_append]
      cases hresult with
      | none _ => exact .functionDef hkeyword hname.isMarked rfl .none rfl
      | some hcolon htype =>
        exact .functionDef hkeyword hname.isMarked rfl (.one hcolon htype.isNode) rfl
  | empty hstop => exact .emptyStmt hstop

/-- Every node that a rule makes has the children of its kind. -/
theorem Production.grammatical {kind : Kind} {row : List Shape}
    (h : Production (.node kind row)) : Grammatical kind row := by
  cases h with
  | expr h => exact h.grammatical
  | arguments hopening hclosing hrow => exact .argList hopening hrow.listed hclosing
  | parameters hopening hclosing hrow => exact .paramList hopening hrow.listed hclosing
  | item h =>
    cases h with
    | argument hvalue => exact (hvalue.standalone rfl).grammatical
    | element hvalue _ => exact .arrayItem hvalue.isExpr_value
    | keyed hkey harrow hvalue => exact .keyedItem hkey.isExpr_value harrow hvalue.isExpr_value
    -- A parameter without a default has nothing behind its row.
    | param hrow _ =>
      rw [← List.append_nil row]
      exact hrow.grammatical .none
    | paramDefault hrow hequals hvalue =>
      exact hrow.grammatical (.one hequals hvalue.isExpr_value)
  | type h => exact h.grammatical
  | stmt h => exact h.grammatical
  | branch h =>
    cases h with
    | elseif hkeyword hguard hbody _ => exact .elseifClause hkeyword hguard.bracketed hbody.isStmt
    | otherwise hkeyword hbody => exact .elseClause hkeyword hbody.isStmt

/-- The root of a file has the children of a file. -/
theorem DerivesFile.grammatical {row : List Shape} {stop : Word} (h : DerivesFile row)
    (hstop : stop.kind = .endOfFile) : Grammatical .sourceFile (row ++ [Shape.word stop]) := by
  cases h with
  | bare hrow => exact .sourceFile .bare hrow.isStmt_of_mem hstop
  | tagged htag hrow => exact .sourceFile (.tag htag) hrow.isStmt_of_mem hstop

/-! ## What is not in the list -/

/-- No node of the list is an error, and none was never given a kind. -/
theorem Grammatical.kind_ne {kind : Kind} {row : List Shape} (h : Grammatical kind row) :
    kind ≠ .error ∧ kind ≠ .tombstone := by
  have hjump {keyword kind : Kind} (hkeyword : jumpKind? keyword = some kind) :
      kind ≠ .error ∧ kind ≠ .tombstone := by
    have hmem := mem_of_jumpKind? hkeyword
    constructor
    all_goals
      rintro rfl
      exact absurd hmem (by decide)
  -- Kinds that are read off a table are all in its range; the others are written out.
  cases h with
  | operand hkind =>
    rcases kind_of_operandKind? hkind with ⟨_, rfl⟩ | rfl | rfl | ⟨_, rfl⟩ <;> decide
  | namedMember _ hop _ | variableMember _ hop _ | computedMember _ hop _ _ _ =>
    rcases kind_of_accessKind? hop with ⟨_, rfl⟩ | ⟨_, rfl⟩ <;> decide
  | jumpStmt hkeyword _ | valueStmt hkeyword _ _ => exact hjump hkeyword
  | _ => decide

end Grammar

namespace Shape

/-- No word of a row is a character that begins no token. -/
def Known (row : List Shape) : Prop := ∀ it, Shape.word it ∈ row → it.kind ≠ .unknown

namespace Known

variable {row more : List Shape} {shape : Shape} {kind : Kind}

theorem nil : Known [] := fun _ h => absurd h List.not_mem_nil

theorem word {it : Word} (hkind : kind ≠ .unknown) (hword : it.kind = kind) (hmore : Known more) :
    Known (.word it :: more) := by
  intro other hother
  rcases List.mem_cons.mp hother with heq | hother
  · rw [Shape.word.inj heq, hword]
    exact hkind
  · exact hmore other hother

theorem append (h : Known row) (hmore : Known more) : Known (row ++ more) := by
  intro it hit
  rcases List.mem_append.mp hit with hit | hit
  · exact h it hit
  · exact hmore it hit

theorem part (hshape : ∀ it, shape ≠ .word it) (hmore : Known more) : Known (shape :: more) := by
  intro it hit
  rcases List.mem_cons.mp hit with heq | hit
  · exact absurd heq.symm (hshape it)
  · exact hmore it hit

theorem parts (h : ∀ shape ∈ row, ∀ it, shape ≠ .word it) : Known row :=
  fun it hit => absurd rfl (h _ hit it)

end Known

theorem IsExpr.ne_word {shape : Shape} (h : IsExpr shape) (it : Word) : shape ≠ .word it := by
  rintro rfl
  exact h

theorem IsStmt.ne_word {shape : Shape} (h : IsStmt shape) (it : Word) : shape ≠ .word it := by
  rintro rfl
  exact h

theorem IsNode.ne_word {wanted : Kind} {shape : Shape} (h : IsNode wanted shape) (it : Word) :
    shape ≠ .word it := by
  rintro rfl
  exact h

end Shape

namespace Grammar

open Shape (IsExpr IsNode Known)

variable {p : Shape → Prop} {row : List Shape}

theorem Listed.known (hp : ∀ shape, p shape → ∀ it, shape ≠ .word it) (h : Listed p row) :
    Known row := by
  induction h with
  | none => exact .nil
  | last hitem => exact .part (hp _ hitem) .nil
  | more hitem hcomma _ ih => exact .part (hp _ hitem) (.word (by decide) hcomma ih)

theorem Separated.known (hp : ∀ shape, p shape → ∀ it, shape ≠ .word it) (h : Separated p row) :
    Known row := by
  induction h with
  | one hitem => exact .part (hp _ hitem) .nil
  | more hitem hcomma _ ih => exact .part (hp _ hitem) (.word (by decide) hcomma ih)

theorem AtMostOne.known (hp : ∀ shape, p shape → ∀ it, shape ≠ .word it) (h : AtMostOne p row) :
    Known row := by
  cases h with
  | none => exact .nil
  | one hpart => exact .part (hp _ hpart) .nil

theorem Introduced.known {kind : Kind} (hkind : kind ≠ .unknown)
    (hp : ∀ shape, p shape → ∀ it, shape ≠ .word it) (h : Introduced kind p row) : Known row := by
  cases h with
  | none => exact .nil
  | one hword hpart => exact .word hkind hword (.part (hp _ hpart) .nil)

theorem Barred.known (h : Barred row) : Known row := by
  induction h with
  | none => exact .nil
  | more hbar hname _ ih =>
    exact .word (by decide) (Word.kind_of_isText hbar) (.word (by decide) hname ih)

theorem Bracketed.known (h : Bracketed row) : Known row := by
  cases h with
  | mk hopening hinner hclosing =>
    exact .word (by decide) hopening (.part hinner.ne_word (.word (by decide) hclosing .nil))

theorem Section.known {terminator : Kind} (hterminator : terminator ≠ .unknown)
    (h : Section terminator row) : Known row := by
  cases h with
  | empty hstop => exact .word hterminator hstop .nil
  | exprs hrow hstop =>
    exact (hrow.known fun _ h => h.ne_word).append (.word hterminator hstop .nil)

theorem Marked.known {kind : Kind} (hkind : kind ≠ .unknown) (h : Marked kind row) : Known row := by
  cases h with
  | plain hname => exact .word hkind hname .nil
  | marked hmark hname =>
    exact .word (by decide) (Word.kind_of_isText hmark) (.word hkind hname .nil)

/-- No word among the children of a node of the list is a character that begins no token. -/
theorem Grammatical.known {kind : Kind} (h : Grammatical kind row) : Known row := by
  -- A table that has no entry for such a character does not look one up.
  have htable {table : Kind → Option Kind} {it : Word} {found : Kind} {more : List Shape}
      (htable : table .unknown = none) (hit : table it.kind = some found) (hmore : Known more) :
      Known (.word it :: more) := by
    refine .word (fun hkind => ?_) rfl hmore
    rw [hkind, htable] at hit
    exact absurd hit (by simp only [reduceCtorEq, not_false_eq_true])
  have hexpr {more : List Shape} {part : Shape} (hpart : IsExpr part) (hmore : Known more) :
      Known (part :: more) := .part hpart.ne_word hmore
  cases h with
  | operand hkind => exact htable rfl hkind .nil
  | parenExpr hrow => exact hrow.known
  | arrayExpr hopening hrow hclosing | paramList hopening hrow hclosing =>
    exact .word (by decide) hopening
      ((hrow.known fun _ h => h.ne_word).append (.word (by decide) hclosing .nil))
  | argList hopening hrow hclosing =>
    exact .word (by decide) hopening
      ((hrow.known fun _ h => h.ne_word).append (.word (by decide) hclosing .nil))
  | arrayItem hvalue => exact hexpr hvalue .nil
  | keyedItem hkey harrow hvalue => exact hexpr hkey (.word (by decide) harrow (hexpr hvalue .nil))
  | newExpr hkeyword hname hrow =>
    have hargs := hrow.known fun _ h => h.ne_word
    rcases hname with hname | hname
    all_goals exact .word (by decide) hkeyword (.part hname.ne_word hargs)
  | callExpr hcallee hlist => exact hexpr hcallee (.part hlist.ne_word .nil)
  | appendExpr hbase hopening hclosing =>
    exact hexpr hbase (.word (by decide) hopening (.word (by decide) hclosing .nil))
  | indexExpr hbase hopening hindex hclosing =>
    exact hexpr hbase
      (.word (by decide) hopening (hexpr hindex (.word (by decide) hclosing .nil)))
  -- The name behind an arrow was asked for its kind directly.
  | namedMember hbase hop hname =>
    refine hexpr hbase (htable rfl hop (.word (fun hkind => ?_) rfl .nil))
    rw [hkind] at hname
    exact absurd hname (by decide)
  | variableMember hbase hop hname => exact hexpr hbase (htable rfl hop (.part hname.ne_word .nil))
  | computedMember hbase hop hopening hinner hclosing =>
    exact hexpr hbase (htable rfl hop
      (.word (by decide) hopening (hexpr hinner (.word (by decide) hclosing .nil))))
  | prefixExpr hop hinner =>
    rw [isLeading, Bool.and_eq_true, beq_iff_eq] at hop
    exact .word (by decide) hop.1 (hexpr hinner .nil)
  | postfixExpr hinner hop _ => exact hexpr hinner (.word (by decide) hop .nil)
  | assignExpr htarget _ hop hvalue =>
    rcases hop with hop | hop
    all_goals exact hexpr htarget (.word (by decide) hop (hexpr hvalue .nil))
  | concatExpr hleft hop hright | binaryExpr hleft hop _ hright =>
    exact hexpr hleft (.word (by decide) hop (hexpr hright .nil))
  | shortTernaryExpr hcondition hquestion hcolon hfalse =>
    exact hexpr hcondition
      (.word (by decide) hquestion (.word (by decide) hcolon (hexpr hfalse .nil)))
  | ternaryExpr hcondition hquestion htrue hcolon hfalse =>
    exact hexpr hcondition (.word (by decide) hquestion
      (hexpr htrue (.word (by decide) hcolon (hexpr hfalse .nil))))
  | block hopening hrow hclosing =>
    exact .word (by decide) hopening
      ((Known.parts fun _ h => (hrow _ h).ne_word).append (.word (by decide) hclosing .nil))
  | exprStmt hvalue hstop => exact hexpr hvalue (.word (by decide) hstop .nil)
  | echoStmt hkeyword hrow hstop =>
    exact .word (by decide) hkeyword
      ((hrow.known fun _ h => h.ne_word).append (.word (by decide) hstop .nil))
  | jumpStmt hkeyword hstop => exact htable rfl hkeyword (.word (by decide) hstop .nil)
  | valueStmt hkeyword hvalue hstop =>
    exact htable rfl hkeyword (hexpr hvalue (.word (by decide) hstop .nil))
  | emptyStmt hstop => exact .word (by decide) hstop .nil
  | ifStmt hkeyword hguard hbody hclauses hotherwise =>
    have hclauses := Known.parts fun _ h => (hclauses _ h).ne_word
    have hotherwise := hotherwise.known fun _ h => h.ne_word
    exact .word (by decide) hkeyword
      (hguard.known.append (.part hbody.ne_word (hclauses.append hotherwise)))
  | elseifClause hkeyword hguard hbody | whileStmt hkeyword hguard hbody =>
    exact .word (by decide) hkeyword (hguard.known.append (.part hbody.ne_word .nil))
  | elseClause hkeyword hbody => exact .word (by decide) hkeyword (.part hbody.ne_word .nil)
  | doWhileStmt hkeyword hbody hagain hguard hstop =>
    exact .word (by decide) hkeyword (.part hbody.ne_word
      (.word (by decide) hagain (hguard.known.append (.word (by decide) hstop .nil))))
  -- The three parts of the head may be empty.
  | forStmt hkeyword hopening hfirst hsecond hthird hbody =>
    have hhead := ((hfirst.known (by decide)).append (hsecond.known (by decide))).append
      (hthird.known (by decide))
    exact .word (by decide) hkeyword
      (.word (by decide) hopening (hhead.append (.part hbody.ne_word .nil)))
  | foreachStmt hkeyword hopening hsubject hseparator htarget hclosing hbody =>
    exact .word (by decide) hkeyword (.word (by decide) hopening (hexpr hsubject
      (.word (by decide) hseparator (hexpr htarget
        (.word (by decide) hclosing (.part hbody.ne_word .nil))))))
  | keyedForeachStmt hkeyword hopening hsubject hseparator hkey harrow htarget hclosing hbody =>
    exact .word (by decide) hkeyword (.word (by decide) hopening (hexpr hsubject
      (.word (by decide) hseparator (hexpr hkey (.word (by decide) harrow (hexpr htarget
        (.word (by decide) hclosing (.part hbody.ne_word .nil))))))))
  | functionDef hkeyword hname hlist hresult hbody =>
    have hresult := hresult.known (by decide) fun _ h => h.ne_word
    exact .word (by decide) hkeyword ((hname.known (by decide)).append
      (.part hlist.ne_word (hresult.append (.part hbody.ne_word .nil))))
  | param htype hvar hvalue =>
    have htype := htype.known fun _ h => h.ne_word
    have hvalue := hvalue.known (by decide) fun _ h => h.ne_word
    exact (htype.append (hvar.known (by decide))).append hvalue
  | typeRef hname hrow => exact .word (by decide) hname hrow.known
  | optionalTypeRef hmark hname hrow =>
    exact .word (by decide) hmark (.word (by decide) hname hrow.known)
  | sourceFile htag hrow hstop =>
    have hrow := Known.parts fun _ h => (hrow _ h).ne_word
    cases htag with
    | bare => exact hrow.append (.word (by decide) hstop .nil)
    | tag hword => exact (Known.word (by decide) hword hrow).append (.word (by decide) hstop .nil)

end Grammar

end PhpAssist

import PhpAssist.Grammar.Stmt
import PhpAssist.Proofs.Shape

/-!
# The grammar as a relation

What the grammar accepts, without the parser: which rows of shapes may stand in which place, and
what has to follow. Nothing is said here about reports or error nodes, so a row that is derived is
code that is read without complaint.

Reading is greedy, and this is what makes the relation more than a list of productions. An operand
goes on for as long as the next word can continue it, a condition takes every `else` it can get,
and so on. Each part is therefore derived in front of the word that comes next, and may be derived
only in front of a word that does not continue it. `none` is the end of the text.

The two loops behind an operand are derived by their states: `access` is an operand with some
calls, indexes and accesses behind it, and `operation` is an expression with some operators behind
it, both with more to come. Whether the loop stops is asked where the state becomes an `operand`
or an `expr`.

## Main definitions

* `Grammar.Symbol`: The places in an expression.
* `Grammar.Derives`: The rows that may stand in a place, in front of a word.
* `Grammar.TypeShape`, `Grammar.ParamName`: Types, and parameters up to their names.
* `Grammar.Exprs`, `Grammar.Guard`, `Grammar.LoopHead`, `Grammar.FunctionHead`: Parts of
  statements.
* `Grammar.Part`, `Grammar.DerivesStmt`: Statements.
-/

namespace PhpAssist

namespace Grammar

/-- The kind of the word ahead. -/
def aheadKind (look : Option Word) : Kind := look.elim .endOfFile Word.kind

/-- The word in front of which something stands that a row comes behind. -/
def lookBefore (row : List Shape) (look : Option Word) : Option Word :=
  (Shape.wordsOf row).head?.or look

/-- Whether a word goes on with a call, an index, an access or a trailing operator. -/
def continuesAccess (word : Word) : Bool :=
  match word.kind with
  | .leftParen | .leftBracket | .arrow | .doubleColon => true
  | .operator => word.text == ['+', '+'] || word.text == ['-', '-']
  | _ => false

/-- Whether a word is an operator that takes an operand of a kind, where operators have to bind at
    least so tightly. -/
def continuesExpr (least : Nat) (operand : Kind) (word : Word) : Bool :=
  if (word.kind == .equals || word.kind == .assignOp) && isAssignable operand then true
  else if word.kind == .question then least ≤ ternaryLeft
  else (binding? word.kind word.text).any fun binding => least ≤ binding.left

/-- Whether a word stands in front of an operand as its operator. -/
def isLeading (word : Word) : Bool :=
  word.kind == .operator && leadingOperators.any (·.toList == word.text)

/-- The node that a member behind an operator makes. -/
def accessKind? : Kind → Option Kind
  | .arrow => some .memberExpr
  | .doubleColon => some .staticExpr
  | _ => none

/-- The node that the name of a class makes behind `new`. -/
def classKind? : Kind → Option Kind
  | .name => some .nameRef
  | .variableName => some .variable
  | _ => none

/-- An operand of one token is a variable, a name, a number or a string. -/
theorem kind_of_operandKind? {tok kind : Kind} (h : operandKind? tok = some kind) :
    (tok = .variableName ∧ kind = .variable) ∨ kind = .nameRef ∨ kind = .literal ∨
      (tok.isString = true ∧ kind = .stringLiteral) := by
  unfold operandKind? at h
  split at h
  all_goals
    first
    | exact absurd h (by simp only [reduceCtorEq, not_false_eq_true])
    | rw [← Option.some.inj h]
      decide

theorem kind_of_accessKind? {op kind : Kind} (h : accessKind? op = some kind) :
    (op = .arrow ∧ kind = .memberExpr) ∨ (op = .doubleColon ∧ kind = .staticExpr) := by
  unfold accessKind? at h
  split at h
  · exact .inl ⟨rfl, (Option.some.inj h).symm⟩
  · exact .inr ⟨rfl, (Option.some.inj h).symm⟩
  · exact absurd h (by simp only [reduceCtorEq, not_false_eq_true])

theorem kind_of_classKind? {first kind : Kind} (h : classKind? first = some kind) :
    (first = .name ∧ kind = .nameRef) ∨ (first = .variableName ∧ kind = .variable) := by
  unfold classKind? at h
  split at h
  · exact .inl ⟨rfl, (Option.some.inj h).symm⟩
  · exact .inr ⟨rfl, (Option.some.inj h).symm⟩
  · exact absurd h (by simp only [reduceCtorEq, not_false_eq_true])

/-- The members of a union type behind the first one. -/
inductive UnionMembers : Option Word → List Shape → Prop
  | done {look : Option Word} (hlook : look.any (·.isText .operator "|") = false) :
      UnionMembers look []
  | more {look : Option Word} {bar name : Word} {row : List Shape}
      (hbar : bar.isText .operator "|" = true) (hname : name.kind = .name)
      (hrow : UnionMembers look row) : UnionMembers look (.word bar :: .word name :: row)

/-- A type, possibly optional or a union. -/
inductive TypeShape : Option Word → Shape → Prop
  | plain {look : Option Word} {name : Word} {row : List Shape} (hname : name.kind = .name)
      (hrow : UnionMembers look row) : TypeShape look (.node .typeRef (.word name :: row))
  | optional {look : Option Word} {mark name : Word} {row : List Shape}
      (hmark : mark.kind = .question) (hname : name.kind = .name)
      (hrow : UnionMembers look row) :
      TypeShape look (.node .typeRef (.word mark :: .word name :: row))

/-- The name of a parameter, with a `&` in front of it or not. -/
inductive ParamVariable : List Shape → Prop
  | plain {var : Word} (hvar : var.kind = .variableName) : ParamVariable [.word var]
  | marked {mark var : Word} (hmark : mark.isText .operator "&" = true)
      (hvar : var.kind = .variableName) : ParamVariable [.word mark, .word var]

/-- A parameter up to its name. -/
inductive ParamName : List Shape → Prop
  | untyped {row : List Shape} (hrow : ParamVariable row) : ParamName row
  | typed {type : Shape} {row : List Shape} (hrow : ParamVariable row)
      (htype : TypeShape (Shape.wordsOf row).head? type) : ParamName (type :: row)

/-- The three lists between brackets, by what they list. -/
inductive ListSort where
  | argument
  | element
  | parameter

/-- The shape of a list between brackets. -/
def ListSort.brackets : ListSort → Brackets
  | .argument => arguments
  | .element => arrayItems
  | .parameter => parameters

/-- The places in an expression. -/
inductive Symbol where
  | atom
  | access
  | operand
  | operation (least : Nat)
  | expr (least : Nat)
  | member
  | item (sort : ListSort)
  | items (sort : ListSort)

/-- The rows of shapes that may stand in a place of an expression, in front of a word. -/
inductive Derives : Symbol → Option Word → List Shape → Prop
  -- Operands without operators.
  | token {look : Option Word} {tok : Word} {kind : Kind}
      (hkind : operandKind? tok.kind = some kind) :
      Derives .atom look [.node kind [.word tok]]
  | paren {look : Option Word} {opening closing : Word} {inner : Shape}
      (hopening : opening.kind = .leftParen) (hclosing : closing.kind = .rightParen)
      (hinner : Derives (.expr 0) (some closing) [inner]) :
      Derives .atom look [.node .parenExpr [.word opening, inner, .word closing]]
  | array {look : Option Word} {opening closing : Word} {row : List Shape}
      (hopening : opening.kind = .leftBracket) (hclosing : closing.kind = .rightBracket)
      (hrow : Derives (.items .element) (some closing) row) :
      Derives .atom look [.node .arrayExpr (.word opening :: (row ++ [.word closing]))]
  | new {look : Option Word} {keyword name : Word} {kind : Kind}
      (hkeyword : keyword.kind = .newKw) (hname : classKind? name.kind = some kind)
      (hlook : aheadKind look ≠ .leftParen) :
      Derives .atom look [.node .newExpr [.word keyword, .node kind [.word name]]]
  | newWith {look : Option Word} {keyword name opening closing : Word} {kind : Kind}
      {row : List Shape} (hkeyword : keyword.kind = .newKw)
      (hname : classKind? name.kind = some kind) (hopening : opening.kind = .leftParen)
      (hclosing : closing.kind = .rightParen)
      (hrow : Derives (.items .argument) (some closing) row) :
      Derives .atom look [.node .newExpr [.word keyword, .node kind [.word name],
        .node .argList (.word opening :: (row ++ [.word closing]))]]
  -- Calls, indexes and accesses.
  | access {look : Option Word} {base : Shape} (hbase : Derives .atom look [base]) :
      Derives .access look [base]
  | call {look : Option Word} {opening closing : Word} {base : Shape} {row : List Shape}
      (hbase : Derives .access (some opening) [base]) (hopening : opening.kind = .leftParen)
      (hclosing : closing.kind = .rightParen)
      (hrow : Derives (.items .argument) (some closing) row) :
      Derives .access look [.node .callExpr [base,
        .node .argList (.word opening :: (row ++ [.word closing]))]]
  | append {look : Option Word} {opening closing : Word} {base : Shape}
      (hbase : Derives .access (some opening) [base]) (hopening : opening.kind = .leftBracket)
      (hclosing : closing.kind = .rightBracket) :
      Derives .access look [.node .indexExpr [base, .word opening, .word closing]]
  | index {look : Option Word} {opening closing : Word} {base inner : Shape}
      (hbase : Derives .access (some opening) [base]) (hopening : opening.kind = .leftBracket)
      (hclosing : closing.kind = .rightBracket)
      (hinner : Derives (.expr 0) (some closing) [inner]) :
      Derives .access look [.node .indexExpr [base, .word opening, inner, .word closing]]
  | memberOf {look : Option Word} {op : Word} {base : Shape} {kind : Kind} {row : List Shape}
      (hbase : Derives .access (some op) [base]) (hop : accessKind? op.kind = some kind)
      (hrow : Derives .member look row) :
      Derives .access look [.node kind (base :: .word op :: row)]
  | step {look : Option Word} {op : Word} {base : Shape}
      (hbase : Derives .access (some op) [base]) (hop : op.kind = .operator)
      (hstep : op.text = ['+', '+'] ∨ op.text = ['-', '-']) :
      Derives .access look [.node .postfixExpr [base, .word op]]
  -- Names of members.
  | memberWord {look : Option Word} {name : Word}
      (hname : name.kind = .name ∨ name.kind.isKeyword = true) :
      Derives .member look [.word name]
  | memberVariable {look : Option Word} {name : Word} (hname : name.kind = .variableName) :
      Derives .member look [.node .variable [.word name]]
  | memberBraces {look : Option Word} {opening closing : Word} {inner : Shape}
      (hopening : opening.kind = .leftBrace) (hclosing : closing.kind = .rightBrace)
      (hinner : Derives (.expr 0) (some closing) [inner]) :
      Derives .member look [.word opening, inner, .word closing]
  -- Operators.
  | operand {look : Option Word} {base : Shape} (hbase : Derives .access look [base])
      (hlook : look.any continuesAccess = false) : Derives .operand look [base]
  | leading {look : Option Word} {op : Word} {inner : Shape} (hop : isLeading op = true)
      (hinner : Derives (.expr leadingPower) look [inner]) :
      Derives .operand look [.node .prefixExpr [.word op, inner]]
  | operation {least : Nat} {look : Option Word} {left : Shape}
      (hleft : Derives .operand look [left]) : Derives (.operation least) look [left]
  | assign {least : Nat} {look : Option Word} {op : Word} {left right : Shape}
      (hleft : Derives (.operation least) (some op) [left])
      (hop : op.kind = .equals ∨ op.kind = .assignOp) (htarget : isAssignable left.kind = true)
      (hright : Derives (.expr assignmentPower) look [right]) :
      Derives (.operation least) look [.node .assignExpr [left, .word op, right]]
  | short {least : Nat} {look : Option Word} {question colon : Word} {left right : Shape}
      (hleft : Derives (.operation least) (some question) [left])
      (hquestion : question.kind = .question) (hleast : least ≤ ternaryLeft)
      (hcolon : colon.kind = .colon) (hright : Derives (.expr ternaryRight) look [right]) :
      Derives (.operation least) look
        [.node .ternaryExpr [left, .word question, .word colon, right]]
  | ternary {least : Nat} {look : Option Word} {question colon : Word} {left middle right : Shape}
      (hleft : Derives (.operation least) (some question) [left])
      (hquestion : question.kind = .question) (hleast : least ≤ ternaryLeft)
      (hmiddle : Derives (.expr 0) (some colon) [middle]) (hcolon : colon.kind = .colon)
      (hright : Derives (.expr ternaryRight) look [right]) :
      Derives (.operation least) look
        [.node .ternaryExpr [left, .word question, middle, .word colon, right]]
  | binary {least : Nat} {look : Option Word} {op : Word} {left right : Shape} {binding : Binding}
      (hleft : Derives (.operation least) (some op) [left])
      (hbinding : binding? op.kind op.text = some binding) (hleast : least ≤ binding.left)
      (hright : Derives (.expr binding.right) look [right]) :
      Derives (.operation least) look [.node binding.kind [left, .word op, right]]
  | expr {least : Nat} {look : Option Word} {whole : Shape}
      (hwhole : Derives (.operation least) look [whole])
      (hlook : look.any (continuesExpr least whole.kind) = false) :
      Derives (.expr least) look [whole]
  -- Lists between brackets.
  | argument {look : Option Word} {value : Shape} (hvalue : Derives (.expr 0) look [value]) :
      Derives (.item .argument) look [value]
  | element {look : Option Word} {value : Shape} (hvalue : Derives (.expr 0) look [value])
      (hlook : aheadKind look ≠ .fatArrow) :
      Derives (.item .element) look [.node .arrayItem [value]]
  | keyed {look : Option Word} {arrow : Word} {key value : Shape}
      (hkey : Derives (.expr 0) (some arrow) [key]) (harrow : arrow.kind = .fatArrow)
      (hvalue : Derives (.expr 0) look [value]) :
      Derives (.item .element) look [.node .arrayItem [key, .word arrow, value]]
  | param {look : Option Word} {row : List Shape} (hrow : ParamName row)
      (hlook : aheadKind look ≠ .equals) : Derives (.item .parameter) look [.node .param row]
  | paramDefault {look : Option Word} {equals : Word} {value : Shape} {row : List Shape}
      (hrow : ParamName row) (hequals : equals.kind = .equals)
      (hvalue : Derives (.expr 0) look [value]) :
      Derives (.item .parameter) look [.node .param (row ++ [.word equals, value])]
  | none {sort : ListSort} {look : Option Word} (hlook : aheadKind look = sort.brackets.closing) :
      Derives (.items sort) look []
  | last {sort : ListSort} {look : Option Word} {item : Shape}
      (hitem : Derives (.item sort) look [item]) (hlook : aheadKind look = sort.brackets.closing) :
      Derives (.items sort) look [item]
  | more {sort : ListSort} {look : Option Word} {comma : Word} {item : Shape} {row : List Shape}
      (hitem : Derives (.item sort) (some comma) [item]) (hcomma : comma.kind = .comma)
      (hrow : Derives (.items sort) look row) :
      Derives (.items sort) look (item :: .word comma :: row)

/-- Expressions with commas between them. -/
inductive Exprs : Option Word → List Shape → Prop
  | one {look : Option Word} {value : Shape} (hvalue : Derives (.expr 0) look [value])
      (hlook : aheadKind look ≠ .comma) : Exprs look [value]
  | more {look : Option Word} {comma : Word} {value : Shape} {row : List Shape}
      (hvalue : Derives (.expr 0) (some comma) [value]) (hcomma : comma.kind = .comma)
      (hrow : Exprs look row) : Exprs look (value :: .word comma :: row)

/-- A condition in parentheses. -/
inductive Guard : List Shape → Prop
  | mk {opening closing : Word} {inner : Shape} (hopening : opening.kind = .leftParen)
      (hclosing : closing.kind = .rightParen)
      (hinner : Derives (.expr 0) (some closing) [inner]) :
      Guard [.word opening, inner, .word closing]

/-- A part in the head of a `for` loop with its terminator. -/
inductive ForPart (terminator : Kind) : List Shape → Prop
  | empty {stop : Word} (hstop : stop.kind = terminator) : ForPart terminator [.word stop]
  | exprs {stop : Word} {row : List Shape} (hrow : Exprs (some stop) row)
      (hstop : stop.kind = terminator) : ForPart terminator (row ++ [.word stop])

/-- The values that a `foreach` loop gives to its variables. -/
inductive EachTarget : Option Word → List Shape → Prop
  | value {look : Option Word} {value : Shape} (hvalue : Derives (.expr 0) look [value])
      (hlook : aheadKind look ≠ .fatArrow) : EachTarget look [value]
  | keyed {look : Option Word} {arrow : Word} {key value : Shape}
      (hkey : Derives (.expr 0) (some arrow) [key]) (harrow : arrow.kind = .fatArrow)
      (hvalue : Derives (.expr 0) look [value]) : EachTarget look [key, .word arrow, value]

/-- The head of a loop behind its keyword, by the node that the loop makes. -/
inductive LoopHead : Kind → List Shape → Prop
  | whileHead {row : List Shape} (hrow : Guard row) : LoopHead .whileStmt row
  | forHead {opening : Word} {first second third : List Shape} (hopening : opening.kind = .leftParen)
      (hfirst : ForPart .semicolon first) (hsecond : ForPart .semicolon second)
      (hthird : ForPart .rightParen third) :
      LoopHead .forStmt (.word opening :: (first ++ second ++ third))
  | eachHead {opening separator closing : Word} {subject : Shape} {target : List Shape}
      (hopening : opening.kind = .leftParen)
      (hsubject : Derives (.expr 0) (some separator) [subject]) (hseparator : separator.kind = .asKw)
      (htarget : EachTarget (some closing) target) (hclosing : closing.kind = .rightParen) :
      LoopHead .foreachStmt
        (.word opening :: subject :: .word separator :: (target ++ [.word closing]))

/-- The loop that a keyword begins. -/
def loopKind? : Kind → Option Kind
  | .whileKw => some .whileStmt
  | .forKw => some .forStmt
  | .foreachKw => some .foreachStmt
  | _ => none

/-- The statement that a keyword begins which leaves something. -/
def jumpKind? : Kind → Option Kind
  | .returnKw => some .returnStmt
  | .breakKw => some .breakStmt
  | .continueKw => some .continueStmt
  | _ => none

theorem keyword_of_loopKind? {keyword loop : Kind} (h : loopKind? keyword = some loop) :
    (keyword = .whileKw ∧ loop = .whileStmt) ∨ (keyword = .forKw ∧ loop = .forStmt) ∨
      (keyword = .foreachKw ∧ loop = .foreachStmt) := by
  unfold loopKind? at h
  split at h
  · exact .inl ⟨rfl, (Option.some.inj h).symm⟩
  · exact .inr (.inl ⟨rfl, (Option.some.inj h).symm⟩)
  · exact .inr (.inr ⟨rfl, (Option.some.inj h).symm⟩)
  · exact absurd h (by simp only [reduceCtorEq, not_false_eq_true])

theorem keyword_of_jumpKind? {keyword jump : Kind} (h : jumpKind? keyword = some jump) :
    (keyword = .returnKw ∧ jump = .returnStmt) ∨ (keyword = .breakKw ∧ jump = .breakStmt) ∨
      (keyword = .continueKw ∧ jump = .continueStmt) := by
  unfold jumpKind? at h
  split at h
  · exact .inl ⟨rfl, (Option.some.inj h).symm⟩
  · exact .inr (.inl ⟨rfl, (Option.some.inj h).symm⟩)
  · exact .inr (.inr ⟨rfl, (Option.some.inj h).symm⟩)
  · exact absurd h (by simp only [reduceCtorEq, not_false_eq_true])

/-- The name of a function, with a `&` in front of it or not. -/
inductive FunctionName : List Shape → Prop
  | plain {name : Word} (hname : name.kind = .name) : FunctionName [.word name]
  | marked {mark name : Word} (hmark : mark.isText .operator "&" = true)
      (hname : name.kind = .name) : FunctionName [.word mark, .word name]

/-- The result type of a function, if there is one. -/
inductive ResultType : Option Word → List Shape → Prop
  | none {look : Option Word} (hlook : aheadKind look ≠ .colon) : ResultType look []
  | some {look : Option Word} {colon : Word} {type : Shape} (hcolon : colon.kind = .colon)
      (htype : TypeShape look type) : ResultType look [.word colon, type]

/-- The head of a function behind its keyword. -/
inductive FunctionHead : Option Word → List Shape → Prop
  | mk {look : Option Word} {opening closing : Word} {name row result : List Shape}
      (hname : FunctionName name) (hopening : opening.kind = .leftParen)
      (hrow : Derives (.items .parameter) (some closing) row) (hclosing : closing.kind = .rightParen)
      (hresult : ResultType look result) :
      FunctionHead look
        (name ++ .node .paramList (.word opening :: (row ++ [.word closing])) :: result)

/-- The places outside of expressions. -/
inductive Part where
  | stmt
  | stmts
  | branches

/-- The rows of shapes that may stand in a place outside of expressions, in front of a word. -/
inductive DerivesStmt : Part → Option Word → List Shape → Prop
  | block {look : Option Word} {opening closing : Word} {row : List Shape}
      (hopening : opening.kind = .leftBrace) (hclosing : closing.kind = .rightBrace)
      (hrow : DerivesStmt .stmts (some closing) row) :
      DerivesStmt .stmt look [.node .block (.word opening :: (row ++ [.word closing]))]
  | expr {look : Option Word} {stop : Word} {value : Shape} (hstop : stop.kind = .semicolon)
      (hvalue : Derives (.expr 0) (some stop) [value]) :
      DerivesStmt .stmt look [.node .exprStmt [value, .word stop]]
  | echo {look : Option Word} {keyword stop : Word} {row : List Shape}
      (hkeyword : keyword.kind = .echoKw) (hrow : Exprs (some stop) row)
      (hstop : stop.kind = .semicolon) :
      DerivesStmt .stmt look [.node .echoStmt (.word keyword :: (row ++ [.word stop]))]
  | jump {look : Option Word} {keyword stop : Word} {kind : Kind}
      (hkeyword : jumpKind? keyword.kind = some kind) (hstop : stop.kind = .semicolon) :
      DerivesStmt .stmt look [.node kind [.word keyword, .word stop]]
  | jumpWith {look : Option Word} {keyword stop : Word} {kind : Kind} {value : Shape}
      (hkeyword : jumpKind? keyword.kind = some kind)
      (hvalue : Derives (.expr 0) (some stop) [value]) (hstop : stop.kind = .semicolon) :
      DerivesStmt .stmt look [.node kind [.word keyword, value, .word stop]]
  | choice {look : Option Word} {keyword : Word} {guard row : List Shape} {body : Shape}
      (hkeyword : keyword.kind = .ifKw) (hguard : Guard guard)
      (hbody : DerivesStmt .stmt (lookBefore row look) [body])
      (hrow : DerivesStmt .branches look row) :
      DerivesStmt .stmt look [.node .ifStmt (.word keyword :: (guard ++ body :: row))]
  | loop {look : Option Word} {keyword : Word} {kind : Kind} {head : List Shape} {body : Shape}
      (hkeyword : loopKind? keyword.kind = some kind) (hhead : LoopHead kind head)
      (hbody : DerivesStmt .stmt look [body]) :
      DerivesStmt .stmt look [.node kind (.word keyword :: (head ++ [body]))]
  | doWhile {look : Option Word} {keyword again stop : Word} {guard : List Shape} {body : Shape}
      (hkeyword : keyword.kind = .doKw) (hbody : DerivesStmt .stmt (some again) [body])
      (hwhile : again.kind = .whileKw) (hguard : Guard guard) (hstop : stop.kind = .semicolon) :
      DerivesStmt .stmt look
        [.node .doWhileStmt (.word keyword :: body :: .word again :: (guard ++ [.word stop]))]
  | function {look : Option Word} {keyword opening closing : Word} {head row : List Shape}
      (hkeyword : keyword.kind = .functionKw) (hhead : FunctionHead (some opening) head)
      (hopening : opening.kind = .leftBrace) (hclosing : closing.kind = .rightBrace)
      (hrow : DerivesStmt .stmts (some closing) row) :
      DerivesStmt .stmt look [.node .functionDef (.word keyword ::
        (head ++ [.node .block (.word opening :: (row ++ [.word closing]))]))]
  | empty {look : Option Word} {stop : Word} (hstop : stop.kind = .semicolon) :
      DerivesStmt .stmt look [.node .emptyStmt [.word stop]]
  | nil {look : Option Word} : DerivesStmt .stmts look []
  | cons {look : Option Word} {first : Shape} {row : List Shape}
      (hfirst : DerivesStmt .stmt (lookBefore row look) [first])
      (hrow : DerivesStmt .stmts look row) : DerivesStmt .stmts look (first :: row)
  | noBranch {look : Option Word} (helseif : aheadKind look ≠ .elseifKw)
      (hotherwise : aheadKind look ≠ .elseKw) : DerivesStmt .branches look []
  | elseif {look : Option Word} {keyword : Word} {guard row : List Shape} {body : Shape}
      (hkeyword : keyword.kind = .elseifKw) (hguard : Guard guard)
      (hbody : DerivesStmt .stmt (lookBefore row look) [body])
      (hrow : DerivesStmt .branches look row) :
      DerivesStmt .branches look (.node .elseifClause (.word keyword :: (guard ++ [body])) :: row)
  | otherwise {look : Option Word} {keyword : Word} {body : Shape} (hkeyword : keyword.kind = .elseKw)
      (hbody : DerivesStmt .stmt look [body]) :
      DerivesStmt .branches look [.node .elseClause [.word keyword, body]]

end Grammar

end PhpAssist

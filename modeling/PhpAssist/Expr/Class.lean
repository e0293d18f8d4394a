import PhpAssist.Tree

/-!
# Classes of expressions

The assists treat expressions alike that can be moved about in the same way. What decides is
whether evaluating an expression can be seen from outside, and whether it can be read inside a
string between braces.

## Main definitions

* `ExprClass`: The classes.
* `Tree.hasSideEffects`: Whether evaluating an expression can change something.
* `Tree.isRootedAtVariable`: Whether a chain of accesses starts at a variable.
* `Tree.isInterpolatable`: Whether an access may stand between braces in a string.
* `Tree.exprClass`: The class of an expression.
-/

namespace PhpAssist

/-- What an expression is to the assists. -/
inductive ExprClass where
  | stringLiteral
  | simpleVariable
  | memberOrIndexAccess
  | assignment
  | call
  | ternary
  | concatenation
  | genericExpression
  | loop
  deriving DecidableEq

/-- The name under which a class is reported. -/
def ExprClass.label : ExprClass → String
  | .stringLiteral => "StringLiteral"
  | .simpleVariable => "SimpleVariable"
  | .memberOrIndexAccess => "MemberOrIndexAccess"
  | .assignment => "Assignment"
  | .call => "Call"
  | .ternary => "Ternary"
  | .concatenation => "Concatenation"
  | .genericExpression => "GenericExpression"
  | .loop => "Loop"

namespace Tree

/-- The first token that is not trivia. -/
def firstToken? (tree : Tree) : Option Token := tree.significant.head?

/-- Whether a node by itself can change something: a call, an assignment, or a step up or
    down. -/
def isEffect (tree : Tree) : Bool :=
  match tree.kind with
  | .callExpr | .newExpr | .assignExpr | .postfixExpr => true
  | .prefixExpr => tree.firstToken?.any fun tok => tok.text == ['+', '+'] || tok.text == ['-', '-']
  | _ => false

/-- Whether evaluating an expression can change something or run other code. -/
def hasSideEffects (tree : Tree) : Bool := tree.subtrees.any isEffect

mutual

/-- Whether a chain of accesses starts at a variable. -/
def isRootedAtVariable : Tree → Bool
  | .token _ => false
  | .node .variable _ => true
  | .node .memberExpr children => isFirstRooted children
  | .node .indexExpr children => isFirstRooted children
  | .node _ _ => false

/-- Whether the first node of a row starts at a variable. -/
def isFirstRooted : List Tree → Bool
  | [] => false
  | .token _ :: more => isFirstRooted more
  | .node kind children :: _ => isRootedAtVariable (.node kind children)

end

/-- Whether a node is an index without anything between its brackets, which can be written to
    but not read. -/
def isEmptyIndex (tree : Tree) : Bool :=
  tree.kind == .indexExpr && tree.childNodes.length ≤ 1

/-- Whether an access reads the same between braces in a string as outside: it starts at a
    variable, it can be read, and reading it does nothing else. -/
def isInterpolatable (tree : Tree) : Bool :=
  tree.isRootedAtVariable && !tree.subtrees.any isEmptyIndex && !tree.hasSideEffects

/-- The class of an expression. -/
def exprClass (tree : Tree) : ExprClass :=
  match tree.kind with
  | .stringLiteral => .stringLiteral
  | .variable => .simpleVariable
  | .memberExpr | .indexExpr =>
    if tree.isInterpolatable then .memberOrIndexAccess else .genericExpression
  | .assignExpr => .assignment
  | .callExpr | .newExpr => .call
  | .ternaryExpr => .ternary
  | .concatExpr => .concatenation
  | .whileStmt | .doWhileStmt | .forStmt | .foreachStmt => .loop
  | _ => .genericExpression

end Tree

end PhpAssist

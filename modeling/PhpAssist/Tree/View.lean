import PhpAssist.Tree.Node

/-!
# The parts of a node

What the children of a node mean depends on its kind: the first node of an assignment is its
target, the second its value. This module names the parts. A part may be missing, because a tree
holds whatever was written.

## Main definitions

* `Node.first?`, `Node.second?`: The first two child nodes.
* `TernaryPart`, `Node.ternaryPart?`: The three parts of a conditional.
* `Quoting`: The four ways to write a string.
* `View`, `Node.view?`: The parts of a node, by its kind.
-/

namespace PhpAssist

/-- The ways to write a string literal. -/
inductive Quoting where
  | single
  | double
  | heredoc
  | nowdoc
  deriving DecidableEq

/-- The way of writing that a kind of token stands for. -/
def Quoting.ofKind? : Kind → Option Quoting
  | .singleQuotedString => some .single
  | .doubleQuotedString => some .double
  | .heredocString => some .heredoc
  | .nowdocString => some .nowdoc
  | _ => none

/-- The parts of a conditional: before its `?`, between `?` and `:`, and behind its `:`. -/
inductive TernaryPart where
  | condition
  | whenTrue
  | whenFalse
  deriving DecidableEq

namespace TernaryPart

/-- The part that begins behind a token. Other tokens begin none. -/
def behind (part : TernaryPart) : Kind → TernaryPart
  | .question => .whenTrue
  | .colon => .whenFalse
  | _ => part

/-- The first node in a part, `current` being the part in which the children begin. -/
def find? (wanted current : TernaryPart) : List Element → Option Node
  | [] => none
  | .leaf leaf :: more => find? wanted (current.behind leaf.kind) more
  | .node node :: more => if current = wanted then some node else find? wanted current more

end TernaryPart

namespace Node

/-- The first child node. -/
def first? (node : Node) : Option Node := node.childNodes[0]?

/-- The second child node. -/
def second? (node : Node) : Option Node := node.childNodes[1]?

/-- The child nodes that are statements. -/
def statements (node : Node) : List Node := node.childNodes.filter (·.kind.isStatement)

/-- The first child node that is a list of arguments. -/
def argList? (node : Node) : Option Node := node.childNodes.find? (·.kind == .argList)

/-- The operator of an assignment. -/
def assignOp? (node : Node) : Option Leaf :=
  node.childLeaf? fun kind => kind == .equals || kind == .assignOp

/-- The operator of a binary expression. -/
def operator? (node : Node) : Option Leaf := node.childLeaf? (· == .operator)

/-- A part of a conditional. The middle part is missing from the short form. -/
def ternaryPart? (part : TernaryPart) (node : Node) : Option Node :=
  TernaryPart.find? part .condition node.elements

/-- The node itself, if it has a kind. -/
def cast? (kind : Kind) (node : Node) : Option Node :=
  if node.kind == kind then some node else none

end Node

/-- The parts of a node. -/
inductive View where
  | statements (items : List Node)
  | expression (expr : Option Node)
  | arguments (args : List Node)
  | variable (name : Option Leaf)
  | call (callee argList : Option Node)
  | operation (left : Option Node) (operator : Option Leaf) (right : Option Node)
  | concatenation (left right : Option Node)
  | ternary (condition : Option Node) (question : Option Leaf) (whenTrue : Option Node)
      (colon : Option Leaf) (whenFalse : Option Node)
  | string (token : Option Leaf)
  | access (base : Option Node)

/-- The parts of a node, for the kinds that have named parts. -/
def Node.view? (node : Node) : Option View :=
  match node.kind with
  | .sourceFile | .block => some (.statements node.statements)
  | .exprStmt | .parenExpr => some (.expression node.first?)
  | .echoStmt | .argList => some (.arguments node.childNodes)
  | .variable => some (.variable (node.childLeaf? (· == .variableName)))
  | .callExpr => some (.call node.first? node.argList?)
  | .assignExpr => some (.operation node.first? node.assignOp? node.second?)
  | .binaryExpr => some (.operation node.first? node.operator? node.second?)
  | .concatExpr => some (.concatenation node.first? node.second?)
  | .ternaryExpr =>
    some (.ternary (node.ternaryPart? .condition) (node.childLeaf? (· == .question))
      (node.ternaryPart? .whenTrue) (node.childLeaf? (· == .colon))
      (node.ternaryPart? .whenFalse))
  | .stringLiteral => some (.string (node.childLeaf? Kind.isString))
  | .memberExpr | .indexExpr => some (.access node.first?)
  | _ => none

end PhpAssist

import PhpAssist.Edit
import PhpAssist.Expr.Chain
import PhpAssist.Format.Call
import PhpAssist.Tree.AtOffset
import PhpAssist.Tree.View

/-!
# The cursor

An assist looks at the code around a cursor. Where the cursor lies between two tokens, the one
that says more is meant: a name or a literal before an operator, an operator before punctuation.

## Main definitions

* `AssistConfig`: What can be set.
* `AssistContext`: A parsed text and a cursor in it.
* `AssistContext.ancestors`: The nodes around the cursor.
* `Node.anchor?`: The statement in front of which new statements can be put.
* `Node.unparenthesized`: An expression without the parentheses around it.
-/

namespace PhpAssist

/-- What can be set: how concatenations become formats, and what a variable that is declared
    ahead of a condition gets as its first value. -/
structure AssistConfig where
  converter : Converter
  placeholder : Option Text

/-- A converter to `sprintf`, and declarations without a placeholder. -/
def AssistConfig.default : AssistConfig := ⟨.sprintf, none⟩

/-- A parsed text, a cursor in it and what is set. -/
structure AssistContext where
  parse : Parse
  offset : Nat
  config : AssistConfig

namespace AssistContext

/-- How much a token at the cursor says. -/
def priority (kind : Kind) : Nat :=
  match kind with
  | .singleQuotedString | .doubleQuotedString | .heredocString | .nowdocString => 3
  | .variableName | .name | .intNumber | .floatNumber => 3
  | .dot | .question | .colon | .equals | .assignOp | .operator => 2
  | .endOfFile => 0
  | _ => 1

/-- The token at the cursor. -/
def leaf? (context : AssistContext) : Option Leaf :=
  (context.parse.root.leavesAt context.offset).best? priority

/-- The nodes around the cursor, the innermost first. -/
def ancestors (context : AssistContext) : List Node :=
  match context.leaf? with
  | some leaf => leaf.parents
  | none => []

end AssistContext

namespace Node

/-- The innermost statement around a node that sits directly in a block or in the file, so that
    new statements can be put in front of it. -/
def anchor? (node : Node) : Option Node :=
  node.ancestors.find? fun it =>
    it.kind.isStatement && it.parent?.any fun parent => parent.kind.holdsStatements

/-- Goes down to the first child node, so many times. -/
def descend : Nat → Node → Node
  | 0, node => node
  | count + 1, node =>
    match node.first? with
    | some inner => descend count inner
    | none => node

/-- An expression without the parentheses around it. -/
def unparenthesized (node : Node) : Node := node.descend node.tree.parens

end Node

end PhpAssist

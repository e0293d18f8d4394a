import PhpAssist.Tree

/-!
# Chains of concatenations

A concatenation nests to the left and may be grouped by parentheses, but its meaning is a row of
operands. Parentheses around an operand that is itself a concatenation only group, and are
looked through; parentheses around anything else belong to the operand.

## Main definitions

* `Tree.operands`: The operands of a chain from left to right.
* `Tree.parens`: The number of parentheses around an expression.
-/

namespace PhpAssist

namespace Tree

mutual

/-- The operands of a chain from left to right. Anything but a chain is its own operand. -/
def operands : Tree → List Tree
  | .token tok => [.token tok]
  | .node .concatExpr children => operandsOf children
  -- Parentheses are looked through only when a chain stands directly in them.
  | .node .parenExpr children => (groupedOperands? children).getD [.node .parenExpr children]
  | .node kind children => [.node kind children]

/-- The operands of all nodes of a row. -/
def operandsOf : List Tree → List Tree
  | [] => []
  | .token _ :: more => operandsOf more
  | .node kind children :: more => operands (.node kind children) ++ operandsOf more

/-- The operands of the first node of a row, if it is a concatenation. -/
def groupedOperands? : List Tree → Option (List Tree)
  | [] => none
  | .token _ :: more => groupedOperands? more
  | .node .concatExpr children :: _ => some (operands (.node .concatExpr children))
  | .node _ _ :: _ => none

end

mutual

/-- The number of parentheses around an expression. -/
def parens : Tree → Nat
  | .node .parenExpr children => parensOf children
  | _ => 0

/-- The number of parentheses that a row of children opens. -/
def parensOf : List Tree → Nat
  | [] => 0
  | .token _ :: more => parensOf more
  | .node kind children :: _ => parens (.node kind children) + 1

end

end Tree

end PhpAssist

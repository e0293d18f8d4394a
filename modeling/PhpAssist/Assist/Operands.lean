import PhpAssist.Assist.Names
import PhpAssist.Expr.Class
import PhpAssist.Literal.Content

/-!
# Operands of a heredoc

Every operand of a format becomes a piece of text in the heredoc. A literal becomes its content,
a variable or an access stands in braces, and anything else is hoisted: a statement before the
heredoc puts its value into a variable, and the variable stands in braces. An assignment to a
variable is its own such statement.

## Main definitions

* `Hoist`: A statement that has to run before.
* `Slot`: The text that an operand becomes.
* `Resolution`: The slots and hoists of a list of operands.
* `Resolution.of`: Resolves operands in order.
-/

namespace PhpAssist

/-- A statement that has to run before, and the variable or access that it assigns. -/
structure Hoist where
  name : Text
  text : Text
  deriving DecidableEq

/-- The text that the operand with an index becomes. -/
structure Slot where
  index : Nat
  text : Text
  deriving DecidableEq

/-- The slots of some operands, and the statements that have to run before. -/
structure Resolution where
  slots : List Slot
  hoists : List Hoist

namespace Resolution

/-- A text in braces. -/
def braced (text : Text) : Text := '{' :: text ++ ['}']

/-- The target of an assignment, if it can be read in a string. -/
def assignmentTarget? (operand : Tree) : Option Tree :=
  match operand.childNodes.head? with
  | none => none
  | some target =>
    match target.exprClass with
    | .simpleVariable | .memberOrIndexAccess => some target
    | _ => none

/-- The text of one operand, the statement it needs, and the names in use after that. -/
structure Step where
  text : Text
  hoist : Option Hoist
  names : Names

/-- Puts the value of an operand into a new variable. The name tells the position of the
    operand, counted from one. -/
def hoisted (base : String) (ordinal : Nat) (operand : Tree) (names : Names) : Step :=
  let (name, names) := names.fresh (base.toList ++ Text.ofNat ordinal)
  let target := '$' :: name
  ⟨braced target, some ⟨name, target ++ " = ".toList ++ operand.trimmed ++ [';']⟩, names⟩

/-- Resolves the operand with an index. -/
def operand (index : Nat) (operand : Tree) (names : Names) : Except AssistError Step :=
  let asExpression := hoisted "newVarPhpExpression" (index + 1) operand names
  match operand.exprClass with
  | .stringLiteral => do return ⟨← Literal.heredocContent operand, none, names⟩
  | .simpleVariable | .memberOrIndexAccess => .ok ⟨braced operand.trimmed, none, names⟩
  | .assignment =>
    match assignmentTarget? operand with
    | some target =>
      .ok ⟨braced target.trimmed, some ⟨target.trimmed, operand.trimmed ++ [';']⟩, names⟩
    | none => .ok asExpression
  | .call => .ok (hoisted "newVarFnCall" (index + 1) operand names)
  | .ternary | .concatenation | .genericExpression => .ok asExpression
  | .loop => .error (.noResolution .loop)

/-- Resolves operands in order, the first of them having an index. -/
def ofFrom : Nat → List Tree → Names → Except AssistError (Resolution × Names)
  | _, [], names => .ok (⟨[], []⟩, names)
  | index, tree :: more, names => do
    let step ← operand index tree names
    let (resolution, names) ← ofFrom (index + 1) more step.names
    return (⟨⟨index, step.text⟩ :: resolution.slots, step.hoist.toList ++ resolution.hoists⟩,
      names)

/-- Resolves operands in order. -/
def of (operands : List Tree) (names : Names) : Except AssistError Resolution :=
  (ofFrom 0 operands names).map (·.1)

end Resolution

end PhpAssist

import PhpAssist.Assist.Context

/-!
# From a conditional to a condition

A statement that assigns a conditional, `$x = $c ? $a : $b;`, becomes a condition with an
assignment in each branch. Where the target is a plain variable and there is room in front of the
statement, the variable is declared ahead of the condition.

The condition then runs before the target is looked at, so the target must not do anything by
itself; and an assignment that may leave its value unevaluated cannot be split.

## Main definitions

* `TernaryAssignment`: A statement that assigns a conditional, with its parts.
* `TernaryAssignment.locate`: The one around a cursor.
* `TernaryAssignment.change`: The edits that turn it into a condition.
-/

namespace PhpAssist

/-- A statement that assigns a conditional, with its parts. -/
structure TernaryAssignment where
  stmt : Node
  ternary : Node
  target : Node
  operator : Leaf
  condition : Node
  whenTrue : Node
  whenFalse : Node

namespace TernaryAssignment

/-- The operators that bind weaker than an assignment. -/
def weakOperators : List Text := ["and".toList, "or".toList, "xor".toList]

/-- Whether a value has to stand in parentheses behind an assignment operator. -/
def needsParens (value : Tree) : Bool :=
  value.kind == .binaryExpr &&
    (value.childToken? (· == .operator)).any fun token =>
      weakOperators.contains (Text.lower token.text)

/-- The assignment of a value to the target. -/
def assign (found : TernaryAssignment) (value : Node) : Text :=
  let text := if needsParens value.tree then '(' :: value.trimmed ++ [')'] else value.trimmed
  found.target.trimmed ++ ' ' :: found.operator.token.text ++ ' ' :: text ++ [';']

/-- Whether the variable can be declared in a statement of its own. -/
def isDeclaration (found : TernaryAssignment) : Bool :=
  found.operator.kind == .equals && found.target.kind == .variable
    && found.stmt.parent?.any fun parent => parent.kind.holdsStatements

/-- The assignment statement around a conditional. -/
def ofTernary (ternary : Node) : Except AssistError TernaryAssignment :=
  match ternary.ternaryPart? .condition, ternary.ternaryPart? .whenTrue,
    ternary.ternaryPart? .whenFalse with
  | some condition, some whenTrue, some whenFalse =>
    let isPlain (node : Node) : Bool := node.kind.isStatement && node.tree.exprClass != .loop
    match ternary.ancestors.find? isPlain with
    | none => .error (.mismatch .ternaryOutsideStatement)
    | some stmt =>
      let assign? := ((stmt.cast? .exprStmt).bind Node.first?).bind (Node.cast? .assignExpr)
      match assign?.filter fun it => it.second?.any fun value => value.unparenthesized.same ternary
      with
      | none => .error (.mismatch .notAssigned)
      | some assign =>
        match assign.first?, assign.assignOp? with
        | some target, some operator =>
          -- The target is written behind the condition, so it may not do anything by itself.
          if target.tree.hasSideEffects then .error (.mismatch .targetHasEffects)
          else if operator.token.text == ['?', '?', '='] then
            .error (.mismatch .conditionalAssignment)
          else .ok ⟨stmt, ternary, target, operator, condition, whenTrue, whenFalse⟩
        | _, _ => .error (.mismatch .incompleteAssignment)
  | _, _, _ => .error (.mismatch .missingBranch)

/-- The statement that assigns the innermost conditional around the cursor. -/
def locate (context : AssistContext) : Except AssistError TernaryAssignment :=
  match context.ancestors.find? fun node => node.kind == .ternaryExpr with
  | none => .error .notApplicable
  | some ternary => ofTernary ternary

/-- Where the assist is offered. -/
def target? (context : AssistContext) : Option Span :=
  match locate context with
  | .ok found => some found.ternary.span
  | .error _ => none

/-- The condition that takes the place of the statement. -/
def replacementText (found : TernaryAssignment) : Text :=
  "if (".toList ++ found.condition.unparenthesized.trimmed ++ ") \x7b ".toList
    ++ found.assign found.whenTrue ++ " \x7d else \x7b ".toList ++ found.assign found.whenFalse
    ++ " \x7d".toList

/-- The statement that declares the variable. -/
def declaration (placeholder : Option Text) (found : TernaryAssignment) : Text :=
  match placeholder with
  | some value => found.target.trimmed ++ " = ".toList ++ value ++ [';']
  | none => found.target.trimmed ++ [';']

/-- The edits that turn the statement around the cursor into a condition. -/
def change (context : AssistContext) : Except AssistError Change := do
  let found ← locate context
  let text := found.replacementText
  -- What is generated has to be code before it is put anywhere.
  let _ ← parseGenerated text
  let replacement : Edit := ⟨found.stmt.span, text⟩
  if found.isDeclaration then
    let declaration := found.declaration context.config.placeholder
    let _ ← parseGenerated declaration
    let hoist : Hoist := ⟨found.target.trimmed, declaration⟩
    Change.ofEdits (Edit.before context.parse.text found.stmt.span.start [hoist] ++ [replacement])
  else Change.ofEdits [replacement]

end TernaryAssignment

end PhpAssist

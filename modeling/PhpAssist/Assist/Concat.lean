import PhpAssist.Assist.Context

/-!
# From a concatenation to a heredoc

The longest concatenation around a cursor becomes a heredoc. Operands that cannot stand in a
heredoc are computed by statements of their own in front of the statement; that is only right
where the concatenation runs exactly once each time the statement does.

## Main definitions

* `ConcatChain.topmost?`: The longest concatenation around a cursor.
* `ConcatChain.conditional?`: What keeps a concatenation from running exactly once.
* `ConcatChain.change`: The edits that turn it into a heredoc.
-/

namespace PhpAssist

namespace ConcatChain

/-- The longest concatenation around the cursor, also when the cursor is in an argument of a call
    that is an operand of it. -/
def topmost? (context : AssistContext) : Option Node :=
  (context.ancestors.filter fun node => node.kind == .concatExpr).getLast?

/-- Where the assist is offered: at a concatenation, or at an `echo` with several arguments. -/
def target? (context : AssistContext) : Option Span :=
  match (topmost? context).filter fun node => context.config.converter.isApplicable node.tree with
  | some concat => some concat.span
  | none =>
    match context.ancestors.find? fun node => node.kind == .echoStmt with
    | some echo => if 2 ≤ echo.childNodes.length then some echo.span else none
    | none => none

/-- The operators whose right operand may not be evaluated. -/
def shortCircuits : List Text :=
  ["&&".toList, "||".toList, "??".toList, "and".toList, "or".toList]

/-- What keeps a child of a node from running exactly once when the node does. -/
def conditionalChild? (parent child : Node) : Option Conditional :=
  let isSecond := parent.second?.any fun second => second.same child
  match parent.kind with
  | .ternaryExpr =>
    if (parent.ternaryPart? .condition).any fun condition => condition.same child then none
    else some .ternaryBranch
  | .binaryExpr =>
    let isShort := parent.operator?.any fun operator =>
      shortCircuits.contains (Text.lower operator.token.text)
    if isShort && isSecond then some .shortCircuitOperand else none
  | .assignExpr =>
    let isCoalescing := parent.assignOp?.any fun operator =>
      operator.token.text == ['?', '?', '=']
    if isCoalescing && isSecond then some .coalesceOperand else none
  | .elseifClause => some .elseifClause
  | .elseClause => some .elseClause
  | .whileStmt | .doWhileStmt | .forStmt | .foreachStmt => some .loop
  | .ifStmt => if child.kind.isStatement then some .bracelessBody else none
  | .functionDef | .paramList | .param => some .parameterDefault
  | _ => none

/-- The first thing, from a node outwards to its anchor, that keeps the node from running exactly
    once right before the anchor. -/
def conditionalFrom? (anchor child : Node) : List Node → Option Conditional
  | [] => none
  | parent :: outer =>
    match conditionalChild? parent child with
    | some place => some place
    | none => if parent.same anchor then none else conditionalFrom? anchor parent outer

/-- What keeps a node from running exactly once right before its anchor, if anything does. -/
def conditional? (node anchor : Node) : Option Conditional :=
  conditionalFrom? anchor node node.parents

/-- Resolves the operands of a format call. An operand that has no resolution does not fit into
    the code, whatever the operand is. -/
def resolve (operands : List Tree) (names : Names) : Except AssistError Resolution :=
  (Resolution.of operands names).mapError fun
    | .noResolution kind => .mismatch (.notInterpolatable kind)
    | error => error

/-- The edits that turn the concatenation around the cursor into a heredoc. -/
def change (context : AssistContext) : Except AssistError Change := do
  let some concat := topmost? context | throw .notApplicable
  if !context.config.converter.isApplicable concat.tree then throw .notApplicable
  let some anchor := concat.anchor? | throw (.mismatch .chainOutsideStatement)
  -- The format and its operands have to fit each other, whoever made them.
  let call ← context.config.converter.convert concat.tree
  let format := Format.normalize (← Literal.stripQuotes call.format)
  let placeholders := Format.placeholders format
  if placeholders ≠ call.operands.length then
    throw (.conversion (.placeholderCount placeholders call.operands.length))
  -- A statement can be hoisted only to where it runs exactly as often as before.
  let resolution ← resolve call.operands (Names.of context.parse.root)
  if !resolution.hoists.isEmpty then
    if let some place := conditional? concat anchor then throw (.mismatch (.hoistOutOf place))
  -- Whatever is generated has to be code by itself.
  let content ← (Template.of format).fill (resolution.slots.map Slot.text)
  let heredoc ← Literal.heredoc content
  let _ ← parseGenerated ("echo ".toList ++ heredoc ++ [';'])
  resolution.hoists.forM fun hoist => do
    let _ ← parseGenerated hoist.text
  Change.ofEdits
    (Edit.before context.parse.text anchor.span.start resolution.hoists ++ [⟨concat.span, heredoc⟩])

end ConcatChain

end PhpAssist

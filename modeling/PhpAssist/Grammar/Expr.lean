import PhpAssist.Grammar.Repeat

/-!
# Expressions

Operators bind by powers. An operator has one power to its left and one to its right; it takes an
operand that is already there when its left power is at least what the surroundings ask for, and
it asks at least its right power of the operand it reads. A right power above the left one makes
a chain of the operator nest to the left, an equal one makes it nest to the right.

An assignment does not compete: where the operand in front of it can be assigned to, it takes
that operand and nothing around it, however tightly the surroundings bind.

## Main definitions

* `Grammar.binding?`: The powers of an operator.
* `Grammar.canStartExpr`: The tokens that may begin an expression.
* `Grammar.expr`: An expression that binds at least so tightly.
* `Grammar.operators`: The operators behind an operand.
* `Grammar.postfixes`: The calls, indexes and accesses behind an operand.
* `Grammar.argument`, `Grammar.arrayItem`: The items of the two lists that expressions stand in.
-/

namespace PhpAssist

namespace Grammar

/-- How tightly an operator binds to each side, and the node that it makes. -/
structure Binding where
  left : Nat
  right : Nat
  kind : Kind
  deriving DecidableEq

/-- The powers of the operators that make binary nodes, by spelling. -/
def bindings : List (String × Nat × Nat) :=
  [("or", 1, 2), ("xor", 3, 4), ("and", 5, 6), ("??", 9, 9), ("||", 11, 12), ("&&", 13, 14),
   ("|", 15, 16), ("^", 17, 18), ("&", 19, 20), ("==", 21, 22), ("!=", 21, 22),
   ("===", 21, 22), ("!==", 21, 22), ("<>", 21, 22), ("<=>", 21, 22), ("<", 23, 24),
   (">", 23, 24), ("<=", 23, 24), (">=", 23, 24), ("<<", 27, 28), (">>", 27, 28),
   ("+", 29, 30), ("-", 29, 30), ("*", 31, 32), ("/", 31, 32), ("%", 31, 32),
   ("**", 34, 34)]

/-- What an operand of an assignment asks for: everything that binds tighter than `and`. -/
def assignmentPower : Nat := 7

/-- The left power of a conditional. -/
def ternaryLeft : Nat := 7

/-- What the last branch of a conditional asks for. -/
def ternaryRight : Nat := 8

/-- What the operand of a leading operator asks for. -/
def leadingPower : Nat := 33

/-- The powers of a token between two operands, if it can stand there. -/
def binding? (kind : Kind) (text : Text) : Option Binding :=
  match kind with
  | .dot => some ⟨25, 26, .concatExpr⟩
  | .operator =>
    (bindings.find? fun entry => entry.1.toList == Text.lower text).map fun entry =>
      ⟨entry.2.1, entry.2.2, .binaryExpr⟩
  | _ => none

/-- The operators that may stand in front of an operand. -/
def leadingOperators : List String := ["!", "-", "+", "~", "@", "&", "++", "--"]

/-- The tokens that may begin an expression. -/
def canStartExpr : KindSet :=
  .ofList [.variableName, .name, .intNumber, .floatNumber, .singleQuotedString,
    .doubleQuotedString, .heredocString, .nowdocString, .leftParen, .leftBracket, .newKw,
    .operator]

/-- The tokens that a missing expression leaves alone, because a rule further out reads them. -/
def endsExpr : KindSet :=
  .ofList [.semicolon, .rightParen, .rightBrace, .rightBracket, .comma, .endOfFile]

/-- Whether a node of a kind can be assigned to. -/
def isAssignable : Kind → Bool
  | .variable | .indexExpr | .memberExpr | .staticExpr | .arrayExpr => true
  | _ => false

/-- The brackets around arguments. -/
def arguments : Brackets := ⟨.rightParen, .comma, "expected argument", canStartExpr⟩

/-- The brackets around the items of an array. -/
def arrayItems : Brackets := ⟨.rightBracket, .comma, "expected array item", canStartExpr⟩

/-- The node that a single token makes as an operand. -/
def operandKind? (kind : Kind) : Option Kind :=
  match kind with
  | .variableName => some .variable
  | .name => some .nameRef
  | .intNumber | .floatNumber => some .literal
  | .singleQuotedString | .doubleQuotedString | .heredocString | .nowdocString =>
    some .stringLiteral
  | _ => none

/-- Reports that an expression is missing. -/
def missingExpr (state : State) : State :=
  if state.isAtOneOf endsExpr then state.report "expected expression"
  else state.reject "expected expression"

/-- Reads the name of a class behind `new`. -/
def className (state : State) : State :=
  match state.kind with
  | .name => (state.leaf .nameRef).2
  | .variableName => (state.leaf .variable).2
  | _ => state.report "expected class name"

/-- Reads an argument, if one may begin here. -/
def argument (read : State → Option Completed × State) (state : State) : Bool × State :=
  if state.isAtOneOf canStartExpr then ((read state).1.isSome, (read state).2) else (false, state)

/-- Reads the value that `=>` stands in front of, if there is one. -/
def arrowValue (read : State → Option Completed × State) (state : State) : State :=
  if state.isAt .fatArrow then (read state.bump).2 else state

/-- Reads an item of an array, if one may begin here. -/
def arrayItem (read : State → Option Completed × State) (state : State) : Bool × State :=
  if state.isAtOneOf canStartExpr then
    (true, (arrowValue read (read state.start).2).close state.mark .arrayItem)
  else (false, state)

mutual

/-- Reads an expression whose operators bind at least with the power `least`. -/
def expr : Nat → Nat → State → Option Completed × State
  | 0, _, state => (none, state.stall)
  | allowance + 1, least, state =>
    match unary allowance state with
    | (none, state) => (none, state)
    | (some operand, state) =>
      let (whole, state) := operators allowance least operand state
      (some whole, state)

/-- Reads the operators behind an operand, with their operands, and gives the node they make. -/
def operators : Nat → Nat → Completed → State → Completed × State
  | 0, _, operand, state => (operand, state.stall)
  | allowance + 1, least, operand, state =>
    let start := state.mark
    -- An assignment takes its target without asking how tightly the surroundings bind.
    if (state.isAt .equals || state.isAt .assignOp) && isAssignable operand.kind then
      let state := (expr allowance assignmentPower (state.precede operand).bump).2
      operators allowance least ⟨start, .assignExpr⟩ (state.close start .assignExpr)
    else if state.isAt .question then
      if ternaryLeft < least then (operand, state)
      else
        let state := (state.precede operand).bump
        -- Between `?` and `:` anything may stand, also nothing.
        let state := if state.isAt .colon then state else (expr allowance 0 state).2
        let state := (expr allowance ternaryRight (state.expect .colon)).2
        operators allowance least ⟨start, .ternaryExpr⟩ (state.close start .ternaryExpr)
    else
      match binding? state.kind state.next.text with
      | none => (operand, state)
      | some binding =>
        if binding.left < least then (operand, state)
        else
          let state := (expr allowance binding.right (state.precede operand).bump).2
          operators allowance least ⟨start, binding.kind⟩ (state.close start binding.kind)

/-- Reads an operand with the operators in front of it. -/
def unary : Nat → State → Option Completed × State
  | 0, state => (none, state.stall)
  | allowance + 1, state =>
    if state.isAt .operator && leadingOperators.any (·.toList == state.next.text) then
      (expr allowance leadingPower state.start.bump).2.complete state.mark .prefixExpr
    else
      match primary allowance state with
      | (none, state) => (none, state)
      | (some operand, state) =>
        let (whole, state) := postfixes allowance operand state
        (some whole, state)

/-- Reads the calls, indexes, accesses and trailing operators behind an operand. -/
def postfixes : Nat → Completed → State → Completed × State
  | 0, operand, state => (operand, state.stall)
  | allowance + 1, operand, state =>
    let start := state.mark
    let around := state.precede operand
    match state.kind with
    | .leftParen =>
      postfixes allowance ⟨start, .callExpr⟩ ((argList allowance around).close start .callExpr)
    | .leftBracket =>
      let state := around.bump
      let state := if state.isAt .rightBracket then state else (expr allowance 0 state).2
      postfixes allowance ⟨start, .indexExpr⟩
        ((state.expect .rightBracket).close start .indexExpr)
    | .arrow =>
      postfixes allowance ⟨start, .memberExpr⟩
        ((memberName allowance around.bump).close start .memberExpr)
    | .doubleColon =>
      postfixes allowance ⟨start, .staticExpr⟩
        ((memberName allowance around.bump).close start .staticExpr)
    | .operator =>
      if state.next.text = ['+', '+'] ∨ state.next.text = ['-', '-'] then
        postfixes allowance ⟨start, .postfixExpr⟩ (around.bump.close start .postfixExpr)
      else (operand, state)
    | _ => (operand, state)

/-- Reads a list of arguments. -/
def argList : Nat → State → State
  | 0, state => state.stall
  | allowance + 1, state =>
    (delimited arguments (argument (expr allowance 0)) allowance state.start).close state.mark
      .argList

/-- Reads the name of a member. Reserved words are names here, and braces hold an expression. -/
def memberName : Nat → State → State
  | 0, state => state.stall
  | allowance + 1, state =>
    match state.kind with
    | .name => state.bump
    | .variableName => (state.leaf .variable).2
    | .leftBrace => (expr allowance 0 state.bump).2.expect .rightBrace
    | kind => if kind.isKeyword then state.bump else state.report "expected member name"

/-- Reads an operand without operators. -/
def primary : Nat → State → Option Completed × State
  | 0, state => (none, state.stall)
  | allowance + 1, state =>
    match operandKind? state.kind with
    | some kind => state.leaf kind
    | none =>
      match state.kind with
      | .leftParen =>
        ((expr allowance 0 state.start.bump).2.expect .rightParen).complete state.mark .parenExpr
      | .leftBracket =>
        (delimited arrayItems (arrayItem (expr allowance 0)) allowance state.start).complete
          state.mark .arrayExpr
      | .newKw =>
        let named := className state.start.bump
        (if named.isAt .leftParen then argList allowance named else named).complete state.mark
          .newExpr
      | _ => (none, missingExpr state)

end

end Grammar

end PhpAssist

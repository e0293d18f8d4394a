import PhpAssist.Parse
import PhpAssist.Proofs.Derivation

/-!
# The calls of the grammar

The rules of the grammar are given an allowance that shrinks with every call, and a rule whose
allowance is used up answers with a stalled state. How many calls a parse makes, and which, cannot
be read off such a definition: the allowance is there so that nobody has to ask.

Here each rule is a script without an allowance. It asks other rules for their answers, one after
the other, and goes on with what they say; a repetition asks itself for what is left. A script is
answered by whoever runs it. Answered by the rules themselves, with an allowance less by one, it is
the rule again, so nothing is said here about a grammar other than the one that runs.

The repetitions read their items with the allowance that they were begun with, and only the
repetition itself counts down. There are two numbers in an answer for this reason.

## Main definitions

* `Grammar.Rule`, `Grammar.Call`: A rule, and a rule asked in a state.
* `Grammar.Script`: What a rule asks, and what it does with the answers.
* `Grammar.Call.script`: The script of each rule.
* `Grammar.answer`: What the rules of the grammar answer with an allowance.

## Theorems

* `Grammar.answer_zero`, `Grammar.answer_succ`: Without an allowance a call stalls. With one it is
  its script, answered with one less.
-/

namespace PhpAssist

namespace Grammar

/-- The rules that ask one another. A repetition is a rule that asks itself. -/
inductive Rule where
  | expr (least : Nat)
  | operators (least : Nat) (operand : Completed)
  | unary
  | postfixes (operand : Completed)
  | argList
  | memberName
  | primary
  | items (sort : ListSort)
  | commaSeparated
  | unionMembers
  | stmtList (closing : Kind)
  | stmt
  | block
  | body
  | elseifClauses
  | elseClause

/-- A rule asked in a state. -/
structure Call where
  rule : Rule
  state : State

/-- What a rule says: the node it completed, if it tells, and the state behind it. -/
abbrev Answer := Option Completed × State

/-- What a rule asks, and what it does with the answers. -/
inductive Script (α : Type) where
  | done (value : α)
  | call (asked : Call) (behind : Answer → Script α)

namespace Script

variable {α β : Type}

/-- Goes on with what a script comes to. -/
def andThen (script : Script α) (more : α → Script β) : Script β :=
  match script with
  | .done value => more value
  | .call asked behind => .call asked fun answer => (behind answer).andThen more

instance : Monad Script where
  pure := .done
  bind := .andThen

/-- What a script comes to when its calls are answered. -/
def answered (answers : Call → Answer) : Script α → α
  | .done value => value
  | .call asked behind => (behind (answers asked)).answered answers

@[simp] theorem answered_pure (answers : Call → Answer) (value : α) :
    (pure value : Script α).answered answers = value := rfl

@[simp] theorem answered_done (answers : Call → Answer) (value : α) :
    (Script.done value).answered answers = value := rfl

@[simp] theorem answered_bind (answers : Call → Answer) (script : Script α)
    (more : α → Script β) :
    (script >>= more).answered answers = (more (script.answered answers)).answered answers := by
  induction script with
  | done value => rfl
  | call asked behind ih => exact ih (answers asked)

end Script

/-- Asks a rule. -/
def ask (rule : Rule) (state : State) : Script Answer := .call ⟨rule, state⟩ .done

/-- Asks a rule for the state behind it. -/
def goOn (rule : Rule) (state : State) : Script State :=
  .call ⟨rule, state⟩ fun answer => .done answer.2

@[simp] theorem answered_ask (answers : Call → Answer) (rule : Rule) (state : State) :
    (ask rule state).answered answers = answers ⟨rule, state⟩ := rfl

@[simp] theorem answered_goOn (answers : Call → Answer) (rule : Rule) (state : State) :
    (goOn rule state).answered answers = (answers ⟨rule, state⟩).2 := rfl

/-! ## Parts of rules -/

namespace Script

/-- A script for what may be missing. -/
def onlyIf (present : Bool) (script : Script State) (otherwise : State) : Script State :=
  if present then script else pure otherwise

@[simp] theorem answered_onlyIf (answers : Call → Answer) (present : Bool)
    (script : Script State) (otherwise : State) :
    (onlyIf present script otherwise).answered answers =
      if present then script.answered answers else otherwise := by
  cases present <;> rfl

/-- The value that `=>` stands in front of, if there is one. -/
def arrowValue (state : State) : Script State :=
  onlyIf (state.isAt .fatArrow) (goOn (.expr 0) state.bump) state

/-- The type of a parameter or a result. -/
def typeRef (state : State) : Script State := do
  let after ← goOn .unionMembers ((state.start.skip .question).expect .name)
  return after.close state.mark .typeRef

/-- A parameter up to its name. -/
def paramName (state : State) : Script State := do
  let typed ← onlyIf (state.isAt .name || state.isAt .question) (typeRef state) state
  let marked := if typed.isAtText .operator "&" then typed.bump else typed
  return marked.expect .variableName

/-- An item of a list between brackets: whether there is one, and the state behind it. -/
def item : ListSort → State → Script (Bool × State)
  | .argument, state =>
    if state.isAtOneOf canStartExpr then do
      let (value, after) ← ask (.expr 0) state
      return (value.isSome, after)
    else return (false, state)
  | .element, state =>
    if state.isAtOneOf canStartExpr then do
      let key ← goOn (.expr 0) state.start
      let value ← arrowValue key
      return (true, value.close state.mark .arrayItem)
    else return (false, state)
  | .parameter, state =>
    if state.isAtOneOf canStartParam then do
      let named ← paramName state.start
      let value ← onlyIf (named.isAt .equals) (goOn (.expr 0) named.bump) named
      return (true, value.close state.mark .param)
    else return (false, state)

/-- A list between brackets, brackets included. -/
def delimited (sort : ListSort) (state : State) : Script State := do
  let after ← goOn (.items sort) state.bump
  return after.expect sort.brackets.closing

/-- Expressions between commas. -/
def exprList (state : State) : Script State := do
  let first ← goOn (.expr 0) state
  goOn .commaSeparated first

/-- An expression in parentheses. -/
def condition (state : State) : Script State := do
  let inner ← goOn (.expr 0) (state.expect .leftParen)
  return inner.expect .rightParen

/-- A part in the head of a `for` loop, up to its terminator. -/
def forPart (terminator : Kind) (state : State) : Script State := do
  let after ← onlyIf (!state.isAt terminator) (exprList state) state
  return after.expect terminator

/-- The three parts of a `for` in parentheses. -/
def forHead (state : State) : Script State := do
  let first ← forPart .semicolon (state.expect .leftParen)
  let second ← forPart .semicolon first
  forPart .rightParen second

/-- What a `foreach` runs over and what it assigns, in parentheses. -/
def foreachHead (state : State) : Script State := do
  let subject ← goOn (.expr 0) (state.expect .leftParen)
  let target ← goOn (.expr 0) (subject.expect .asKw)
  let value ← arrowValue target
  return value.expect .rightParen

/-- The parameters of a function. -/
def functionParams (state : State) : Script State :=
  if state.isAt .leftParen then do
    let after ← delimited .parameter state.start
    return after.close state.mark .paramList
  else return state.report "expected function parameters"

/-- A function up to its body. -/
def functionHead (state : State) : Script State := do
  let params ← functionParams (functionName state)
  onlyIf (params.isAt .colon) (typeRef params.bump) params

end Script

/-! ## Rules -/

namespace Script

/-- What follows an operand: an assignment, a conditional, a binary operator or nothing. -/
def operators (least : Nat) (operand : Completed) (state : State) : Script Answer :=
  let start := state.mark
  if (state.isAt .equals || state.isAt .assignOp) && isAssignable operand.kind then do
    let after ← goOn (.expr assignmentPower) (state.precede operand).bump
    ask (.operators least ⟨start, .assignExpr⟩) (after.close start .assignExpr)
  else if state.isAt .question then
    if ternaryLeft < least then return (some operand, state)
    else do
      let inside := (state.precede operand).bump
      let middle ← onlyIf (!inside.isAt .colon) (goOn (.expr 0) inside) inside
      let after ← goOn (.expr ternaryRight) (middle.expect .colon)
      ask (.operators least ⟨start, .ternaryExpr⟩) (after.close start .ternaryExpr)
  else
    match binding? state.kind state.next.text with
    | none => return (some operand, state)
    | some binding =>
      if binding.left < least then return (some operand, state)
      else do
        let after ← goOn (.expr binding.right) (state.precede operand).bump
        ask (.operators least ⟨start, binding.kind⟩) (after.close start binding.kind)

/-- An operand with the operators in front of it and behind it. -/
def unary (state : State) : Script Answer :=
  if state.isAt .operator && leadingOperators.any (·.toList == state.next.text) then do
    let after ← goOn (.expr leadingPower) state.start.bump
    return after.complete state.mark .prefixExpr
  else do
    let (operand, after) ← ask .primary state
    match operand with
    | none => return (none, after)
    | some operand => ask (.postfixes operand) after

/-- What is attached to an operand: arguments, an index, a member or a step. -/
def postfixes (operand : Completed) (state : State) : Script Answer :=
  let start := state.mark
  let around := state.precede operand
  match state.kind with
  | .leftParen => do
    let after ← goOn .argList around
    ask (.postfixes ⟨start, .callExpr⟩) (after.close start .callExpr)
  | .leftBracket => do
    let after ← onlyIf (!around.bump.isAt .rightBracket) (goOn (.expr 0) around.bump) around.bump
    ask (.postfixes ⟨start, .indexExpr⟩) ((after.expect .rightBracket).close start .indexExpr)
  | .arrow => do
    let after ← goOn .memberName around.bump
    ask (.postfixes ⟨start, .memberExpr⟩) (after.close start .memberExpr)
  | .doubleColon => do
    let after ← goOn .memberName around.bump
    ask (.postfixes ⟨start, .staticExpr⟩) (after.close start .staticExpr)
  | .operator =>
    if state.next.text = ['+', '+'] ∨ state.next.text = ['-', '-'] then
      ask (.postfixes ⟨start, .postfixExpr⟩) (around.bump.close start .postfixExpr)
    else return (some operand, state)
  | _ => return (some operand, state)

/-- The name behind an arrow or a double colon. -/
def memberName (state : State) : Script State :=
  match state.kind with
  | .name => return state.bump
  | .variableName => return (state.leaf .variable).2
  | .leftBrace => do
    let inner ← goOn (.expr 0) state.bump
    return inner.expect .rightBrace
  | kind => return if kind.isKeyword then state.bump else state.report "expected member name"

/-- An operand by itself, told by its first token. -/
def primary (state : State) : Script Answer :=
  match operandKind? state.kind with
  | some kind => return state.leaf kind
  | none =>
    match state.kind with
    | .leftParen => do
      let inner ← goOn (.expr 0) state.start.bump
      return (inner.expect .rightParen).complete state.mark .parenExpr
    | .leftBracket => do
      let after ← delimited .element state.start
      return after.complete state.mark .arrayExpr
    | .newKw => do
      let named := className state.start.bump
      let after ← onlyIf (named.isAt .leftParen) (goOn .argList named) named
      return after.complete state.mark .newExpr
    | _ => return (none, missingExpr state)

/-- The items of a list between brackets, up to what closes it. -/
def items (sort : ListSort) (state : State) : Script State :=
  if state.isAt sort.brackets.closing || state.isAt .endOfFile then pure state
  else if state.isAt sort.brackets.separator then
    goOn (.items sort) (state.reject sort.brackets.missingItem)
  else do
    let (found, after) ← item sort state
    if found then
      if after.isAt sort.brackets.separator then goOn (.items sort) after.bump
      else if after.isAtOneOf sort.brackets.first then
        goOn (.items sort) (after.expect sort.brackets.separator)
      else pure after
    else pure after

/-- Statements up to a closing token. Where a statement reads nothing a token is rejected, so every
    turn reads something. -/
def stmtList (closing : Kind) (state : State) : Script State :=
  if state.isAt closing || state.isAt .endOfFile then pure state
  else do
    let after ← goOn .stmt state
    goOn (.stmtList closing) <|
      if after.ahead.length = state.ahead.length then after.reject "expected statement"
      else after

/-- A statement, told by its first token. -/
def stmt (state : State) : Script State :=
  let start := state.mark
  let inside := state.start.bump
  match state.kind with
  | .leftBrace => goOn .block state
  | .echoKw => do
    let values ← exprList inside
    return (values.expect .semicolon).close start .echoStmt
  | .returnKw => jump .returnStmt
  | .breakKw => jump .breakStmt
  | .continueKw => jump .continueStmt
  | .ifKw => do
    let guard ← condition inside
    let governed ← goOn .body guard
    let branches ← goOn .elseifClauses governed
    let after ← goOn .elseClause branches
    return after.close start .ifStmt
  | .whileKw => do
    let head ← condition inside
    let after ← goOn .body head
    return after.close start .whileStmt
  | .doKw => do
    let governed ← goOn .body inside
    let guard ← condition (governed.expect .whileKw)
    return (guard.expect .semicolon).close start .doWhileStmt
  | .forKw => do
    let head ← forHead inside
    let after ← goOn .body head
    return after.close start .forStmt
  | .foreachKw => do
    let head ← foreachHead inside
    let after ← goOn .body head
    return after.close start .foreachStmt
  | .functionKw => do
    let head ← functionHead inside
    let after ← onlyIf (head.isAt .leftBrace) (goOn .block head)
      (head.report "expected function body")
    return after.close start .functionDef
  | .semicolon => return inside.close start .emptyStmt
  | .openTag => return state.reject "unexpected open tag"
  | _ =>
    if state.isAtOneOf canStartExpr then do
      let value ← goOn (.expr 0) state.start
      return (value.expect .semicolon).close start .exprStmt
    else return state.reject "expected statement"
where
  /-- A statement that leaves something and may take a value along. -/
  jump (kind : Kind) : Script State := do
    let inside := state.start.bump
    let value ← onlyIf (inside.isAtOneOf canStartExpr) (goOn (.expr 0) inside) inside
    return (value.expect .semicolon).close state.mark kind

end Script

/-- What a call asks, and what it does with the answers. -/
def Call.script : Call → Script Answer
  | ⟨.expr least, state⟩ => do
    let (operand, after) ← ask .unary state
    match operand with
    | none => return (none, after)
    | some operand => ask (.operators least operand) after
  | ⟨.operators least operand, state⟩ => Script.operators least operand state
  | ⟨.unary, state⟩ => Script.unary state
  | ⟨.postfixes operand, state⟩ => Script.postfixes operand state
  | ⟨.argList, state⟩ => quiet do
    let after ← Script.delimited .argument state.start
    return after.close state.mark .argList
  | ⟨.memberName, state⟩ => quiet (Script.memberName state)
  | ⟨.primary, state⟩ => Script.primary state
  | ⟨.items sort, state⟩ => quiet (Script.items sort state)
  | ⟨.commaSeparated, state⟩ => quiet <|
    if state.isAt .comma then do
      let value ← goOn (.expr 0) state.bump
      goOn .commaSeparated value
    else pure state
  | ⟨.unionMembers, state⟩ => quiet <|
    if state.isAtText .operator "|" then goOn .unionMembers (state.bump.expect .name)
    else pure state
  | ⟨.stmtList closing, state⟩ => quiet (Script.stmtList closing state)
  | ⟨.stmt, state⟩ => quiet (Script.stmt state)
  | ⟨.block, state⟩ => quiet do
    let after ← goOn (.stmtList .rightBrace) state.start.bump
    return (after.expect .rightBrace).close state.mark .block
  | ⟨.body, state⟩ => quiet <|
    if state.isAt .rightBrace || state.isAt .endOfFile then
      pure (state.report "expected statement")
    else goOn .stmt state
  | ⟨.elseifClauses, state⟩ => quiet <|
    if state.isAt .elseifKw then do
      let guard ← Script.condition state.start.bump
      let governed ← goOn .body guard
      goOn .elseifClauses (governed.close state.mark .elseifClause)
    else pure state
  | ⟨.elseClause, state⟩ => quiet <|
    if state.isAt .elseKw then do
      let governed ← goOn .body state.start.bump
      return governed.close state.mark .elseClause
    else pure state
where
  /-- The answer of a rule that tells no node. -/
  quiet (script : Script State) : Script Answer := do
    let after ← script
    return (none, after)

/-! ## Answers -/

/-- Reads an item of a list between brackets with an allowance. -/
def ListSort.read (allowance : Nat) : ListSort → State → Bool × State
  | .argument => Grammar.argument (expr allowance 0)
  | .element => arrayItem (expr allowance 0)
  | .parameter => param allowance

/-- What the rules of the grammar answer with an allowance. Repetitions have one besides for what
    they repeat. -/
def answer (each allowance : Nat) : Call → Answer
  | ⟨.expr least, state⟩ => Grammar.expr allowance least state
  | ⟨.operators least operand, state⟩ =>
    let (whole, after) := Grammar.operators allowance least operand state
    (some whole, after)
  | ⟨.unary, state⟩ => Grammar.unary allowance state
  | ⟨.postfixes operand, state⟩ =>
    let (whole, after) := Grammar.postfixes allowance operand state
    (some whole, after)
  | ⟨.argList, state⟩ => (none, Grammar.argList allowance state)
  | ⟨.memberName, state⟩ => (none, Grammar.memberName allowance state)
  | ⟨.primary, state⟩ => Grammar.primary allowance state
  | ⟨.items sort, state⟩ => (none, Grammar.items sort.brackets (sort.read each) allowance state)
  | ⟨.commaSeparated, state⟩ => (none, Grammar.commaSeparated (anyExpr each) allowance state)
  | ⟨.unionMembers, state⟩ => (none, Grammar.unionMembers allowance state)
  | ⟨.stmtList closing, state⟩ => (none, Grammar.stmtList closing allowance state)
  | ⟨.stmt, state⟩ => (none, Grammar.stmt allowance state)
  | ⟨.block, state⟩ => (none, Grammar.block allowance state)
  | ⟨.body, state⟩ => (none, Grammar.body allowance state)
  | ⟨.elseifClauses, state⟩ => (none, Grammar.elseifClauses allowance state)
  | ⟨.elseClause, state⟩ => (none, Grammar.elseClause allowance state)

/-- Whether a rule is a repetition that reads its items with an allowance of their own. -/
def Rule.repeats : Rule → Bool
  | .items _ | .commaSeparated => true
  | _ => false

/-- What the calls in a script are answered. Only a repetition counts down what it has. -/
def answers (each allowance : Nat) (asked : Call) : Answer :=
  answer each (if asked.rule.repeats then allowance else each) asked

/-- Without an allowance every call stalls. -/
theorem answer_zero (each : Nat) (asked : Call) : (answer each 0 asked).2 = asked.state.stall := by
  rcases asked with ⟨rule, state⟩
  cases rule <;> rfl

section Parts

variable {a b : Nat} {state : State}

theorem ite_not (p : Bool) {α : Type} (x y : α) :
    (if (!p) = true then x else y) = if p = true then y else x := by
  cases p <;> rfl

@[simp] theorem answered_arrowValue :
    (Script.arrowValue state).answered (answers a b) = arrowValue (expr a 0) state := by
  rw [Script.arrowValue, Script.answered_onlyIf]
  rfl

@[simp] theorem answered_typeRef :
    (Script.typeRef state).answered (answers a b) = typeRef a state := rfl

@[simp] theorem answered_paramName :
    (Script.paramName state).answered (answers a b) = paramName a state := by
  simp only [Script.paramName, Script.answered_bind, Script.answered_onlyIf, answered_typeRef]
  rfl

theorem answered_item (sort : ListSort) :
    (Script.item sort state).answered (answers a b) = sort.read a state := by
  -- The rules for items and their scripts make the same calls in the same order.
  cases sort with
  | argument =>
    simp only [Script.item, ListSort.read, Grammar.argument]
    split <;> rfl
  | element =>
    simp only [Script.item, ListSort.read, arrayItem]
    split
    · simp only [Script.answered_bind, answered_arrowValue]
      rfl
    · rfl
  | parameter =>
    simp only [Script.item, ListSort.read, param]
    split
    · simp only [Script.answered_bind, answered_paramName, Script.answered_onlyIf]
      rfl
    · rfl

@[simp] theorem answered_forPart (terminator : Kind) :
    (Script.forPart terminator state).answered (answers a a) = forPart a state terminator := by
  simp only [Script.forPart, Script.answered_bind, Script.answered_onlyIf, ite_not]
  rfl

@[simp] theorem answered_forHead :
    (Script.forHead state).answered (answers a a) = forHead a state := by
  simp only [Script.forHead, Script.answered_bind, answered_forPart]
  rfl

@[simp] theorem answered_foreachHead :
    (Script.foreachHead state).answered (answers a b) = foreachHead a state := by
  simp only [Script.foreachHead, Script.answered_bind, answered_arrowValue]
  rfl

@[simp] theorem answered_functionHead :
    (Script.functionHead state).answered (answers a a) = functionHead a state := by
  have hparams : (Script.functionParams (functionName state)).answered (answers a a) =
      functionParams a (functionName state) := by
    unfold Script.functionParams functionParams
    split <;> rfl
  simp only [Script.functionHead, Script.answered_bind, hparams, Script.answered_onlyIf]
  rfl

@[simp] theorem answered_jump (kind : Kind) :
    (Script.stmt.jump state kind).answered (answers a b) = jumpStmt kind a state := by
  simp only [Script.stmt.jump, Script.answered_bind, Script.answered_onlyIf]
  rfl

end Parts

section Rules

variable (a each : Nat) (state : State)

theorem answer_expr (least : Nat) : answer each (a + 1) ⟨.expr least, state⟩ =
    (Call.script ⟨.expr least, state⟩).answered (answers a a) := by
  have hunary : answers a a ⟨.unary, state⟩ = unary a state := rfl
  show Grammar.expr (a + 1) least state = Script.answered (answers a a) (do
    let (operand, after) ← ask .unary state
    match operand with
    | none => return (none, after)
    | some operand => ask (.operators least operand) after)
  simp only [Grammar.expr, Script.answered_bind, answered_ask, hunary]
  rcases unary a state with ⟨_ | operand, after⟩ <;> rfl

theorem answer_operators (least : Nat) (operand : Completed) :
    answer each (a + 1) ⟨.operators least operand, state⟩ =
      (Call.script ⟨.operators least operand, state⟩).answered (answers a a) := by
  show (match Grammar.operators (a + 1) least operand state with
    | (whole, after) => (some whole, after)) =
      (Script.operators least operand state).answered (answers a a)
  simp only [Grammar.operators, Script.operators]
  -- Both sides ask for an assignment, then for `?`, then for an operator that binds tightly enough.
  split
  · rfl
  · split
    · split
      · rfl
      · simp only [Script.answered_bind, Script.answered_onlyIf, ite_not]
        rfl
    · rcases binding? state.kind state.next.text with _ | binding
      · rfl
      · dsimp only
        split <;> rfl

theorem answer_unary : answer each (a + 1) ⟨.unary, state⟩ =
    (Call.script ⟨.unary, state⟩).answered (answers a a) := by
  have hprimary : answers a a ⟨.primary, state⟩ = primary a state := rfl
  show Grammar.unary (a + 1) state = (Script.unary state).answered (answers a a)
  simp only [Grammar.unary, Script.unary]
  split
  · rfl
  · simp only [Script.answered_bind, answered_ask, hprimary]
    rcases primary a state with ⟨_ | operand, after⟩ <;> rfl

theorem answer_postfixes (operand : Completed) :
    answer each (a + 1) ⟨.postfixes operand, state⟩ =
      (Call.script ⟨.postfixes operand, state⟩).answered (answers a a) := by
  show (match Grammar.postfixes (a + 1) operand state with
    | (whole, after) => (some whole, after)) =
      (Script.postfixes operand state).answered (answers a a)
  simp only [Grammar.postfixes, Script.postfixes]
  -- The kind is a variable now, so that both matches split at once.
  generalize state.kind = kind
  split
  · rfl
  · simp only [Script.answered_bind, Script.answered_onlyIf, ite_not]
    rfl
  · rfl
  · rfl
  · split <;> rfl
  · simp only [Script.answered_pure]

theorem answer_memberName : answer each (a + 1) ⟨.memberName, state⟩ =
    (Call.script ⟨.memberName, state⟩).answered (answers a a) := by
  show (none, Grammar.memberName (a + 1) state) =
    (Call.script.quiet (Script.memberName state)).answered (answers a a)
  simp only [Grammar.memberName, Call.script.quiet, Script.memberName]
  generalize state.kind = kind
  split
  · rfl
  · rfl
  · rfl
  · simp only [Script.answered_bind, Script.answered_pure]

theorem answer_primary : answer each (a + 1) ⟨.primary, state⟩ =
    (Call.script ⟨.primary, state⟩).answered (answers a a) := by
  show Grammar.primary (a + 1) state = (Script.primary state).answered (answers a a)
  simp only [Grammar.primary, Script.primary]
  rcases operandKind? state.kind with _ | kind
  · dsimp only
    -- The kind is a variable now, so that both matches split at once.
    generalize state.kind = kind
    split
    · rfl
    · rfl
    · simp only [Script.answered_bind, Script.answered_onlyIf]
      rfl
    · simp only [Script.answered_pure]
  · rfl

theorem answer_items (sort : ListSort) : answer each (a + 1) ⟨.items sort, state⟩ =
    (Call.script ⟨.items sort, state⟩).answered (answers each a) := by
  show (none, Grammar.items sort.brackets (sort.read each) (a + 1) state) =
    (Call.script.quiet (Script.items sort state)).answered (answers each a)
  simp only [Grammar.items, Call.script.quiet, Script.items]
  split
  · rfl
  · split
    · rfl
    · simp only [Script.answered_bind, answered_item]
      -- What the item rule answers is the same, and both sides go on with it.
      rcases sort.read each state with ⟨_ | _, after⟩
      · rfl
      · dsimp only
        split
        · rfl
        · split <;> rfl

theorem answer_stmtList (closing : Kind) : answer each (a + 1) ⟨.stmtList closing, state⟩ =
    (Call.script ⟨.stmtList closing, state⟩).answered (answers a a) := by
  show (none, Grammar.stmtList closing (a + 1) state) =
    (Call.script.quiet (Script.stmtList closing state)).answered (answers a a)
  simp only [Grammar.stmtList, Call.script.quiet, Script.stmtList]
  split <;> rfl

theorem answer_stmt : answer each (a + 1) ⟨.stmt, state⟩ =
    (Call.script ⟨.stmt, state⟩).answered (answers a a) := by
  show (none, Grammar.stmt (a + 1) state) =
    (Call.script.quiet (Script.stmt state)).answered (answers a a)
  simp only [Grammar.stmt, Call.script.quiet, Script.stmt]
  -- What is left when no keyword begins the statement is made of an expression.
  have hother : (none, if state.isAtOneOf canStartExpr then exprStmt a state
      else state.reject "expected statement") =
      (Call.script.quiet (if state.isAtOneOf canStartExpr then do
          let value ← goOn (.expr 0) state.start
          return (value.expect .semicolon).close state.mark .exprStmt
        else return state.reject "expected statement")).answered (answers a a) := by
    split
    · rfl
    · rfl
  -- Both sides match on the kind, and one case each keeps them from being split apart.
  generalize state.kind = kind
  cases kind with
  | leftBrace | echoKw | ifKw | whileKw | doKw | semicolon | openTag => rfl
  | returnKw | breakKw | continueKw =>
    dsimp only
    rw [Script.answered_bind, answered_jump, Script.answered_pure]
  | forKw =>
    simp only [Script.answered_bind, answered_forHead]
    rfl
  | foreachKw =>
    simp only [Script.answered_bind, answered_foreachHead]
    rfl
  | functionKw =>
    simp only [Script.answered_bind, answered_functionHead, Script.answered_onlyIf]
    rfl
  | _ => exact hother

/-- With an allowance a call is its script, answered with one less. -/
theorem answer_succ (asked : Call) : answer each (a + 1) asked =
    asked.script.answered (answers (if asked.rule.repeats then each else a) a) := by
  rcases asked with ⟨rule, state⟩
  -- The answers for an allowance are told by those for a smaller one, by the script of the rule.
  cases rule with
  | expr least => exact answer_expr a each state least
  | operators least operand => exact answer_operators a each state least operand
  | unary => exact answer_unary a each state
  | postfixes operand => exact answer_postfixes a each state operand
  | argList => rfl
  | memberName => exact answer_memberName a each state
  | primary => exact answer_primary a each state
  | items sort => exact answer_items a each state sort
  | commaSeparated =>
    simp only [answer, Grammar.commaSeparated, Call.script]
    split <;> rfl
  | unionMembers =>
    simp only [answer, Grammar.unionMembers, Call.script]
    split <;> rfl
  | stmtList closing => exact answer_stmtList a each state closing
  | stmt => exact answer_stmt a each state
  | block => rfl
  | body =>
    simp only [answer, Grammar.body, Call.script]
    split <;> rfl
  | elseifClauses =>
    simp only [answer, Grammar.elseifClauses, Call.script]
    split <;> rfl
  | elseClause =>
    simp only [answer, Grammar.elseClause, Call.script]
    split <;> rfl

end Rules

end Grammar

end PhpAssist

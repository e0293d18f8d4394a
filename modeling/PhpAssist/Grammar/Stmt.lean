import PhpAssist.Grammar.Param

/-!
# Statements

A file is a list of statements, and so is a block. A statement that cannot be read leaves an
error node behind, and the list goes on with the next token.

## Main definitions

* `Grammar.stmt`: A statement.
* `Grammar.stmtList`: Statements up to a closing token.
* `Grammar.sourceFile`: A whole file, its opening tag included.
* `Grammar.fragment`: Statements alone.
-/

namespace PhpAssist

namespace Grammar

/-- Reads an expression and forgets what it became. -/
def anyExpr (allowance : Nat) (state : State) : State := (expr allowance 0 state).2

/-- Reads an expression and the commas and expressions behind it. -/
def exprList (allowance : Nat) (state : State) : State :=
  commaSeparated (anyExpr allowance) allowance (anyExpr allowance state)

/-- Reads a condition in parentheses. -/
def condition (allowance : Nat) (state : State) : State :=
  (anyExpr allowance (state.expect .leftParen)).expect .rightParen

/-- Reads an expression as a statement. -/
def exprStmt (allowance : Nat) (state : State) : State :=
  ((anyExpr allowance state.start).expect .semicolon).close state.mark .exprStmt

/-- Reads an `echo` with its values. -/
def echoStmt (allowance : Nat) (state : State) : State :=
  ((exprList allowance state.start.bump).expect .semicolon).close state.mark .echoStmt

/-- Reads a value, if one may begin here. -/
def optionalExpr (allowance : Nat) (state : State) : State :=
  if state.isAtOneOf canStartExpr then anyExpr allowance state else state

/-- Reads a statement that leaves something and may take a value along. -/
def jumpStmt (kind : Kind) (allowance : Nat) (state : State) : State :=
  ((optionalExpr allowance state.start.bump).expect .semicolon).close state.mark kind

/-- Reads one of the three parts in the head of a `for` loop, up to its terminator. -/
def forPart (allowance : Nat) (state : State) (terminator : Kind) : State :=
  (if state.isAt terminator then state else exprList allowance state).expect terminator

/-- Reads the head of a `for` loop behind its keyword. -/
def forHead (allowance : Nat) (state : State) : State :=
  [.semicolon, .semicolon, .rightParen].foldl (forPart allowance) (state.expect .leftParen)

/-- Reads the head of a `foreach` loop behind its keyword. -/
def foreachHead (allowance : Nat) (state : State) : State :=
  let subject := (anyExpr allowance (state.expect .leftParen)).expect .asKw
  (arrowValue (expr allowance 0) (anyExpr allowance subject)).expect .rightParen

/-- Reads the name of a function, with the `&` in front of it. -/
def functionName (state : State) : State :=
  let state := if state.isAtText .operator "&" then state.bump else state
  if state.isAt .name then state.bump
  else state.rejectUnless "expected function name" (.ofList [.leftParen, .leftBrace])

/-- Reads the parameters of a function. -/
def functionParams (allowance : Nat) (state : State) : State :=
  if state.isAt .leftParen then paramList allowance state
  else state.report "expected function parameters"

/-- Reads the result type of a function, if there is one. -/
def resultType (allowance : Nat) (state : State) : State :=
  if state.isAt .colon then typeRef allowance state.bump else state

/-- Reads the name, the parameters and the result type of a function. -/
def functionHead (allowance : Nat) (state : State) : State :=
  resultType allowance (functionParams allowance (functionName state))

mutual

/-- Reads statements up to a closing token or the end. A statement that reads nothing is
    reported, and the token ahead is passed over. -/
def stmtList (closing : Kind) : Nat → State → State
  | 0, state => state.stall
  | allowance + 1, state =>
    if state.isAt closing || state.isAt .endOfFile then state
    else
      let after := stmt allowance state
      -- The rest of the list is read even where the statement read nothing.
      stmtList closing allowance <|
        if after.ahead.length = state.ahead.length then after.reject "expected statement"
        else after

/-- Reads a statement. -/
def stmt : Nat → State → State
  | 0, state => state.stall
  | allowance + 1, state =>
    let start := state.mark
    let inside := state.start.bump
    match state.kind with
    | .leftBrace => block allowance state
    | .echoKw => echoStmt allowance state
    | .returnKw => jumpStmt .returnStmt allowance state
    | .breakKw => jumpStmt .breakStmt allowance state
    | .continueKw => jumpStmt .continueStmt allowance state
    | .ifKw =>
      let branches := elseifClauses allowance (body allowance (condition allowance inside))
      (elseClause allowance branches).close start .ifStmt
    | .whileKw => (body allowance (condition allowance inside)).close start .whileStmt
    | .doKw =>
      let state := (body allowance inside).expect .whileKw
      ((condition allowance state).expect .semicolon).close start .doWhileStmt
    | .forKw => (body allowance (forHead allowance inside)).close start .forStmt
    | .foreachKw => (body allowance (foreachHead allowance inside)).close start .foreachStmt
    | .functionKw =>
      let state := functionHead allowance inside
      (if state.isAt .leftBrace then block allowance state
        else state.report "expected function body").close start .functionDef
    | .semicolon => inside.close start .emptyStmt
    | .openTag => state.reject "unexpected open tag"
    | _ =>
      if state.isAtOneOf canStartExpr then exprStmt allowance state
      else state.reject "expected statement"

/-- Reads a block. -/
def block : Nat → State → State
  | 0, state => state.stall
  | allowance + 1, state =>
    ((stmtList .rightBrace allowance state.start.bump).expect .rightBrace).close state.mark .block

/-- Reads the statement that a condition or a loop governs. -/
def body : Nat → State → State
  | 0, state => state.stall
  | allowance + 1, state =>
    if state.isAt .rightBrace || state.isAt .endOfFile then state.report "expected statement"
    else stmt allowance state

/-- Reads the `elseif` clauses of a condition. -/
def elseifClauses : Nat → State → State
  | 0, state => state.stall
  | allowance + 1, state =>
    if state.isAt .elseifKw then
      elseifClauses allowance <|
        (body allowance (condition allowance state.start.bump)).close state.mark .elseifClause
    else state

/-- Reads the `else` clause of a condition, if there is one. -/
def elseClause : Nat → State → State
  | 0, state => state.stall
  | allowance + 1, state =>
    if state.isAt .elseKw then (body allowance state.start.bump).close state.mark .elseClause
    else state

end

/-- Reads a file: an opening tag, if there is one, statements and the end. -/
def sourceFile (allowance : Nat) (state : State) : State :=
  (stmtList .endOfFile allowance (state.start.skip .openTag)).readEnd.close state.mark .sourceFile

/-- Reads statements without an opening tag, and the end. -/
def fragment (allowance : Nat) (state : State) : State :=
  (stmtList .endOfFile allowance state.start).readEnd.close state.mark .sourceFile

end Grammar

end PhpAssist

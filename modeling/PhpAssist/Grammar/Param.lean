import PhpAssist.Grammar.Expr

/-!
# Parameters

The parameters of a function, with their types and defaults. A parameter may begin with any
operator, but only `&` is read as part of one. In front of another operator a parameter reads
nothing at all and still counts, so the list asks for the next one at the same place, for ever;
this is the one rule of the grammar that does not end.

## Main definitions

* `Grammar.typeRef`: A type, possibly optional or a union.
* `Grammar.param`: A parameter, `Grammar.paramName` its part up to the name.
* `Grammar.paramList`: A list of parameters.
-/

namespace PhpAssist

namespace Grammar

/-- The tokens that may begin a parameter. -/
def canStartParam : KindSet := .ofList [.name, .question, .variableName, .operator]

/-- The brackets around parameters. -/
def parameters : Brackets := ⟨.rightParen, .comma, "expected parameter", canStartParam⟩

/-- Reads the other members of a union type. -/
def unionMembers : Nat → State → State
  | 0, state => state.stall
  | allowance + 1, state =>
    if state.isAtText .operator "|" then unionMembers allowance (state.bump.expect .name)
    else state

/-- Reads a type. -/
def typeRef (allowance : Nat) (state : State) : State :=
  (unionMembers allowance ((state.start.skip .question).expect .name)).close state.mark .typeRef

/-- Reads a parameter up to its name: its type, if one begins here, and the name, which may have
    a `&` in front of it. -/
def paramName (allowance : Nat) (state : State) : State :=
  let state :=
    if state.isAt .name || state.isAt .question then typeRef allowance state else state
  -- Any other operator stays ahead, and then nothing below reads it either.
  let state := if state.isAtText .operator "&" then state.bump else state
  state.expect .variableName

/-- Reads a parameter, if one may begin here. -/
def param (allowance : Nat) (state : State) : Bool × State :=
  if state.isAtOneOf canStartParam then
    let named := paramName allowance state.start
    let state' := if named.isAt .equals then (expr allowance 0 named.bump).2 else named
    (true, state'.close state.mark .param)
  else (false, state)

/-- Reads a list of parameters. -/
def paramList (allowance : Nat) (state : State) : State :=
  (delimited parameters (param allowance) allowance state.start).close state.mark .paramList

end Grammar

end PhpAssist

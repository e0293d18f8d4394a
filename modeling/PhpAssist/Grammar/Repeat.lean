import PhpAssist.Grammar.State

/-!
# Repetitions

Two repetitions that several rules share: a list between two brackets, and a comma followed by
one more of the same.

## Main definitions

* `Grammar.Brackets`: The shape of a list between brackets.
* `Grammar.items`: The items of such a list.
* `Grammar.delimited`: The whole list, brackets included.
* `Grammar.commaSeparated`: More of the same after commas.
-/

namespace PhpAssist

namespace Grammar

/-- The shape of a list between brackets: its closing bracket, what stands between two items,
    what is said about a separator that has no item in front of it, and how an item may begin. -/
structure Brackets where
  closing : Kind
  separator : Kind
  missingItem : String
  first : KindSet

/-- Reads items until the closing bracket or the end. An item says whether it is one; where it
    is not, the list ends. Two items with nothing between them are read on with a report. -/
def items (shape : Brackets) (item : State → Bool × State) : Nat → State → State
  | 0, state => state.stall
  | allowance + 1, state =>
    if state.isAt shape.closing || state.isAt .endOfFile then state
    else if state.isAt shape.separator then
      -- A separator where an item should be is passed over.
      items shape item allowance (state.reject shape.missingItem)
    else
      match item state with
      | (false, state) => state
      | (true, state) =>
        if state.isAt shape.separator then items shape item allowance state.bump
        -- What looks like an item is read as one, whether or not a separator is there.
        else if state.isAtOneOf shape.first then
          items shape item allowance (state.expect shape.separator)
        else state

/-- Reads an opening bracket, items and the closing bracket. -/
def delimited (shape : Brackets) (item : State → Bool × State) (allowance : Nat)
    (state : State) : State :=
  (items shape item allowance state.bump).expect shape.closing

/-- Reads a comma and one more of the same, for as long as there is a comma. -/
def commaSeparated (item : State → State) : Nat → State → State
  | 0, state => state.stall
  | allowance + 1, state =>
    if state.isAt .comma then commaSeparated item allowance (item state.bump) else state

end Grammar

end PhpAssist

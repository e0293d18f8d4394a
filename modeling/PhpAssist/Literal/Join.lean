import PhpAssist.Text

/-!
# Joining pieces of a string

In double quotes and in heredocs, a dollar sign before a name is a variable, and a name goes on
for as long as it can. Two pieces that are put next to each other may therefore say something
that neither says alone. Joining looks at the border and changes the left piece where that would
happen: a lone dollar sign is escaped, a lone brace is written by its number, and a variable that
the right piece would go on with is put in braces.

## Main definitions

* `Join.variableAtEnd?`: A variable at the end of a piece that more text could go on with.
* `Join.guard`: The left piece, changed where it has to be.
* `Join.push`: Two pieces joined.
-/

namespace PhpAssist

namespace Text

/-- What stands before `tail` in a text that ends with it. -/
def beforeEnd? (tail text : Text) : Option Text :=
  if tail.reverse.isPrefixOf text.reverse then some (text.take (text.length - tail.length))
  else none

end Text

namespace Join

/-- Splits a variable off the end of a text: what stands before it, and the variable. -/
def nameAtEnd? (text : Text) : Option (Text × Text) :=
  let name := text.takeEndWhile Text.isIdentContinue
  let before := text.dropEndWhile Text.isIdentContinue
  if name.head?.any Text.isIdentStart && before.getLast? == some '$'
      && !Text.endsInEscape before.dropLast then
    some (before.dropLast, '$' :: name)
  else none

/-- Splits an arrow off the end of a text: what stands before it, and the arrow. -/
def arrowAtEnd? (text : Text) : Option (Text × Text) :=
  match Text.beforeEnd? ['?', '-', '>'] text with
  | some before => some (before, ['?', '-', '>'])
  | none => (Text.beforeEnd? ['-', '>'] text).map fun before => (before, ['-', '>'])

/-- Splits a variable with a property off the end of a text. -/
def propertyAtEnd? (text : Text) : Option (Text × Text) :=
  let property := text.takeEndWhile Text.isIdentContinue
  if property.isEmpty then none
  else
    match arrowAtEnd? (text.dropEndWhile Text.isIdentContinue) with
    | none => none
    | some (object, arrow) =>
      (nameAtEnd? object).map fun (before, name) => (before, name ++ arrow ++ property)

/-- Splits off the end of a text a variable, with a property if it has one, that more text could
    go on with. -/
def variableAtEnd? (text : Text) : Option (Text × Text) :=
  match propertyAtEnd? text with
  | some parts => some parts
  | none => nameAtEnd? text

/-- Whether a piece could go on with a variable that stands right before it. -/
def extendsVariable : Text → Bool
  | '[' :: _ => true
  | '-' :: '>' :: _ => true
  | '?' :: '-' :: '>' :: _ => true
  | c :: _ => Text.isIdentContinue c
  | [] => false

/-- A piece, changed so that a next piece that begins with `first` does not change what it
    says. -/
def guard (out : Text) (first : Char) (piece : Text) : Text :=
  -- A lone dollar sign would become a variable.
  if out.getLast? == some '$' && !Text.endsInEscape out.dropLast
      && (Text.isIdentStart first || first == '{') then
    out.dropLast ++ ['\\', '$']
  -- A lone brace would open code.
  else if out.getLast? == some '{' && first == '$' then
    out.dropLast ++ ['\\', 'x', '7', 'b']
  -- A variable would go on into the piece.
  else if extendsVariable piece then
    match variableAtEnd? out with
    | some (before, name) => before ++ '{' :: name ++ ['}']
    | none => out
  else out

/-- Joins a piece to what is there, so that neither changes what the other says. -/
def push (out piece : Text) : Text :=
  match piece with
  | [] => out
  | first :: _ => guard out first piece ++ piece

end Join

end PhpAssist

import PhpAssist.Assist.Error
import PhpAssist.Literal.Join

/-!
# Format specifiers

In a format, a percent sign and the character behind it are one specifier. Three readings are
needed: putting all placeholders into one form, counting them, and filling them in.

## Main definitions

* `Format.normalize`: Turns `%d` and `%f` into `%s`.
* `Format.placeholders`: The number of `%s`.
* `Template`: A format as its literal parts and the specifiers between them.
* `Template.fill`: Puts values in place of the placeholders.
-/

namespace PhpAssist

namespace Format

/-- Turns every `%d` and `%f` into `%s`. Only `%%`, `%s`, `%d` and `%f` are taken as one here; a
    percent sign in front of anything else is passed over by itself. -/
def normalize : Text → Text
  | '%' :: c :: rest =>
    if c = '%' then '%' :: '%' :: normalize rest
    else if c = 's' ∨ c = 'd' ∨ c = 'f' then '%' :: 's' :: normalize rest
    else '%' :: normalize (c :: rest)
  | c :: rest => c :: normalize rest
  | [] => []

/-- The number of `%s`. -/
def placeholders : Text → Nat
  | '%' :: c :: rest => (if c = 's' then 1 else 0) + placeholders rest
  | _ :: rest => placeholders rest
  | [] => 0

/-- Doubles every percent sign, so that it stands for itself in a format. -/
def escapePercent (text : Text) : Text :=
  text.flatMap fun c => if c = '%' then ['%', '%'] else [c]

end Format

/-- A format as the literal part before its first specifier, and each specifier with the literal
    part behind it. -/
structure Template where
  head : Text
  parts : List (Text × Text)

namespace Template

/-- Splits a format at its specifiers. A percent sign at the end is a specifier of its own. -/
def of : Text → Template
  | [] => ⟨[], []⟩
  | ['%'] => ⟨[], [(['%'], [])]⟩
  | '%' :: c :: rest =>
    let template := of rest
    ⟨[], (['%', c], template.head) :: template.parts⟩
  | c :: rest =>
    let template := of rest
    ⟨c :: template.head, template.parts⟩

/-- Goes on with a text by the specifiers of a format and the values that are left. -/
def fillParts (out : Text) : List (Text × Text) → List Text → Except AssistError Text
  | [], [] => .ok out
  | [], _ :: _ => .error (.conversion .tooManyOperands)
  | (specifier, literal) :: more, values =>
    if specifier = ['%', '%'] then
      fillParts (Join.push (Join.push out ['%']) literal) more values
    else if specifier = ['%', 's'] then
      match values with
      | [] => .error (.conversion .tooFewOperands)
      | value :: values => fillParts (Join.push (Join.push out value) literal) more values
    else .error (.conversion (.unsupportedSpecifier specifier))

/-- Puts a percent sign in place of each `%%` and the next value in place of each `%s`. -/
def fill (template : Template) (values : List Text) : Except AssistError Text :=
  fillParts (Join.push [] template.head) template.parts values

end Template

end PhpAssist

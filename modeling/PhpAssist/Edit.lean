import PhpAssist.Assist.Operands

/-!
# Edits

An edit puts a text in place of a span; an empty span makes it an insertion. The edits of one
change speak about one version of a text and are carried out together, so they must not overlap.
They are kept from left to right, an insertion before a replacement that starts at the same
place.

## Main definitions

* `Edit`, `Change`: A replacement, and replacements that do not overlap.
* `Change.ofEdits`: Puts edits in order, or refuses them.
* `Change.apply`: Carries out a change.
* `Change.fits`: Whether all edits begin and end where characters do.
* `Edit.before`: Statements inserted in front of a statement, on lines of their own.
-/

namespace PhpAssist

/-- Puts a text in place of a span. -/
structure Edit where
  span : Span
  insert : Text
  deriving DecidableEq

/-- Edits from left to right that do not overlap. -/
structure Change where
  edits : List Edit
  deriving DecidableEq

namespace Edit

/-- An edit takes nothing away. -/
def isInsertion (edit : Edit) : Bool := edit.span.length == 0

/-- Whether an edit comes before another one, or at the same place. -/
def precedes (a b : Edit) : Bool :=
  a.span.start < b.span.start
    || (a.span.start == b.span.start && (a.isInsertion || !b.isInsertion))

/-- Whether each edit ends where the next one begins, or before. -/
def disjoint : List Edit → Bool
  | a :: b :: more => a.span.stop ≤ b.span.start && disjoint (b :: more)
  | _ => true

/-- The blanks in front of a statement that stands first on its line; `none` when something else
    stands before it. -/
def indentation? (text : Text) (start : Nat) : Option Text :=
  let line := (Text.takeBytes start text).takeEndWhile (· != '\n')
  if line.all Text.isBlank then some line else none

/-- What stands between two statements in front of a statement: a line end and its indentation,
    or a space when something stands before it on its line. -/
def separator (text : Text) (start : Nat) : Text :=
  match indentation? text start with
  | some indent => '\n' :: indent
  | none => [' ']

/-- Inserts statements, in order, in front of the statement that starts at an offset. -/
def before (text : Text) (start : Nat) (hoists : List Hoist) : List Edit :=
  if hoists.isEmpty then []
  else [⟨.empty start, hoists.flatMap fun hoist => hoist.text ++ separator text start⟩]

end Edit

namespace Change

/-- Puts edits in order. Edits at one place keep the order they have, but an insertion goes
    before a replacement. -/
def ofEdits (edits : List Edit) : Except AssistError Change :=
  let sorted := StableSort.sort Edit.precedes edits
  if Edit.disjoint sorted then .ok ⟨sorted⟩ else .error (.mismatch .overlappingEdits)

/-- Carries out edits on a text of which the first `position` bytes are gone. -/
def applyFrom (position : Nat) : List Edit → Text → Text
  | [], text => text
  | edit :: more, text =>
    -- Offsets speak about the whole text, of which `position` bytes are gone.
    let kept := edit.span.start - position
    let rest := Text.dropBytes edit.span.length (Text.dropBytes kept text)
    Text.takeBytes kept text ++ edit.insert ++ applyFrom edit.span.stop more rest

/-- Carries out a change. -/
def apply (change : Change) (text : Text) : Text := applyFrom 0 change.edits text

/-- Whether every edit begins and ends where characters of the text do. -/
def fits (change : Change) (text : Text) : Bool :=
  change.edits.all fun edit =>
    (Text.splitAt? edit.span.start text).isSome && (Text.splitAt? edit.span.stop text).isSome

end Change

end PhpAssist

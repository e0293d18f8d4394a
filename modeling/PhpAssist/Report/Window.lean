import PhpAssist.Text.Column

/-!
# The part of a line that is shown

A screen is only so wide, and a deep indentation says nothing. What is shown of a line is a
window onto it. A long indentation is cut down first; where that is not enough, the window goes
where the marker is, with as much around it as there is room for.

## Main definitions

* `Extent`: What has to be seen of a line.
* `Window`: The part that is shown.
* `Window.of`: The window for what has to be seen.
-/

namespace PhpAssist

/-- What has to be seen of a line: the columns of its indentation, `none` for a line of white
    space; the columns of the marker; the column behind the label; the length of the line, as it
    stands in the text and as it is shown. -/
structure Extent where
  indent : Option Nat
  first : Nat
  stop : Nat
  labelStop : Nat
  length : Nat
  shown : Nat

/-- The part of a line that is shown: how much is left out in front, how many columns there are,
    and on which sides something is said to be missing. -/
structure Window where
  left : Nat
  width : Nat
  cutLeft : Bool
  cutRight : Bool

namespace Window

/-- The columns of a screen. -/
def screen : Nat := 140

/-- The room around what has to be seen, for the dots that stand for what is missing. -/
def room : Nat := 6

/-- The longest indentation, without the room, that is left as it is. -/
def longIndent : Nat := 20

/-- What is left of an indentation that is longer. -/
def keptIndent : Nat := 4

/-- The bounds of a window of some width, for a line that is indented. -/
def bounds (available indent : Nat) (extent : Extent) : Nat × Nat :=
  let margin := indent - room
  let left := if longIndent < margin then margin - (longIndent - keptIndent) else 0
  let right := max extent.length left
  let first := extent.first - room
  let stop := extent.stop + room
  let labelStop := extent.labelStop + room
  let wide (left : Nat) : Nat × Nat := (left, left + available)
  if right - left ≤ available then (left, right)
  -- The indentation goes first, then what is far from the marker, then the label.
  else if labelStop - margin ≤ available then wide margin
  else if labelStop - first ≤ available then
    wide (first - (available - (labelStop - first)) / 2)
  else if stop - first ≤ available then wide (first - (available - (stop - first)) / 5 * 2)
  else (first, stop)

/-- The window of some width for what has to be seen. Nothing is shown of white space alone. -/
def of (available : Nat) (extent : Extent) : Window :=
  match extent.indent with
  | none => ⟨extent.shown, 0, true, false⟩
  | some indent =>
    let (left, right) := bounds available indent extent
    let start := min left extent.shown
    let stop := if extent.shown - left ≤ available then extent.shown else min extent.shown right
    -- The room behind the marker or the label is not a part of the line that is missing.
    let seen :=
      if right = extent.stop + room ∨ right = extent.labelStop + room then right - room else right
    { left := start
      width := stop - start
      cutLeft := decide (0 < left)
      cutRight := decide (seen < extent.shown ∧ left + available < extent.shown) }

/-- What is shown of a text: characters as long as there are columns for them. -/
def fit : Nat → Text → Text
  | _, [] => []
  | width, c :: rest =>
    let taken := Text.charColumns 1 c
    if taken ≤ width then c :: fit (width - taken) rest else []

end Window

end PhpAssist

import PhpAssist.Token.Cut

/-!
# Numbers

A number starts with a digit, or with a point before a digit. Underscores may stand among the
digits. A base letter after a leading zero changes which characters count as digits; only a
hexadecimal number can have neither a fraction nor an exponent.

An exponent needs a digit or a sign after its letter, so that a name may follow a number
directly; after a fraction the letter alone is enough.

## Main definitions

* `Number.digits`: Takes digits.
* `Number.exponent`: Takes an exponent, if one starts here.
* `Number.scan`: Takes a number and says whether it is a float.
* `Number.scanFraction`: Takes a number that starts with its point.

## Theorems

* `Number.splits_scan`, `Number.splits_scanFraction`: The scanners split the text.
-/

namespace PhpAssist

namespace Number

/-- A digit or a separator between digits. -/
def isDigit (c : Char) : Bool := c.isDigit || c == '_'

/-- A digit of a hexadecimal number or a separator. -/
def isHexDigit (c : Char) : Bool :=
  isDigit c || ('a' ≤ c && c ≤ 'f') || ('A' ≤ c && c ≤ 'F')

/-- Takes digits. -/
def digits (text : Text) : Cut := Cut.run isDigit text

/-- A sign of an exponent. -/
def isSign (c : Char) : Bool := c == '-' || c == '+'

/-- The letter in front of an exponent. -/
def isExponentLetter (c : Char) : Bool := c == 'e' || c == 'E'

/-- Takes a sign, if there is one, and digits. -/
def signedDigits : Text → Cut
  | [] => digits []
  | c :: rest => if isSign c then (digits rest).cons c else digits (c :: rest)

/-- Takes an exponent; nothing where the letter is missing. -/
def exponent : Text → Cut
  | [] => ⟨[], [], true⟩
  | c :: rest =>
    if isExponentLetter c then (signedDigits rest).cons c else ⟨[], c :: rest, true⟩

/-- Takes the point of a fraction, its digits and an exponent. -/
def scanFraction : Text → Cut
  | [] => ⟨[], [], true⟩
  | c :: rest => ((digits rest).andThen exponent).cons c

/-- What comes after the integer part: a fraction, an exponent or nothing. -/
def afterInteger (text : Text) : Bool × Cut :=
  match text with
  | c :: d :: _ =>
    if c = '.' ∧ d.isDigit then (true, scanFraction text)
    else if isExponentLetter c ∧ (d.isDigit ∨ isSign d) then (true, exponent text)
    else (false, ⟨[], text, true⟩)
  | _ => (false, ⟨[], text, true⟩)

/-- The integer part after its first digit, and whether anything may follow it. -/
def integerTail (first : Char) (text : Text) : Bool × Cut :=
  match text with
  | [] => (true, digits [])
  | c :: rest =>
    if first = '0' ∧ (c = 'x' ∨ c = 'X') then (false, (Cut.run isHexDigit rest).cons c)
    else if first = '0' ∧ (c = 'b' ∨ c = 'B' ∨ c = 'o' ∨ c = 'O') then
      (true, (digits rest).cons c)
    else (true, digits text)

/-- Takes a number from its first digit on. The flag tells a float. -/
def scan : Text → Bool × Cut
  | [] => (false, ⟨[], [], true⟩)
  | first :: rest =>
    let integer := integerTail first rest
    if integer.1 then
      let tail := afterInteger integer.2.rest
      (tail.1, (tail.2.prepend integer.2.taken).cons first)
    else
      (false, integer.2.cons first)

theorem splits_digits (text : Text) : (digits text).Splits text := Cut.splits_run isDigit text

theorem splits_signedDigits (text : Text) : (signedDigits text).Splits text := by
  fun_cases signedDigits text with
  | case1 => exact splits_digits []
  | case2 c rest => exact (splits_digits rest).cons c
  | case3 c rest => exact splits_digits (c :: rest)

theorem splits_exponent (text : Text) : (exponent text).Splits text := by
  fun_cases exponent text with
  | case1 => rfl
  | case2 c rest => exact (splits_signedDigits rest).cons c
  | case3 c rest => rfl

theorem splits_scanFraction (text : Text) : (scanFraction text).Splits text := by
  cases text with
  | nil => rfl
  | cons c rest => exact ((splits_digits rest).andThen (splits_exponent _)).cons c

theorem splits_afterInteger (text : Text) : (afterInteger text).2.Splits text := by
  fun_cases afterInteger text with
  | case1 => exact splits_scanFraction _
  | case2 => exact splits_exponent _
  | case3 => rfl
  | case4 => rfl

theorem splits_integerTail (first : Char) (text : Text) :
    (integerTail first text).2.Splits text := by
  fun_cases integerTail first text with
  | case1 => exact splits_digits []
  | case2 c rest => exact (Cut.splits_run isHexDigit rest).cons c
  | case3 c rest => exact (splits_digits rest).cons c
  | case4 => exact splits_digits _

theorem splits_scan (text : Text) : (scan text).2.Splits text := by
  cases text with
  | nil => rfl
  | cons first rest =>
    have hinteger := splits_integerTail first rest
    have htail := splits_afterInteger (integerTail first rest).2.rest
    rw [scan]
    dsimp only
    split
    · have h := htail.prepend (integerTail first rest).2.taken
      rw [show _ ++ _ = rest from hinteger] at h
      exact h.cons first
    · exact hinteger.cons first

theorem taken_scan_ne_nil {text : Text} (h : text ≠ []) : (scan text).2.taken ≠ [] := by
  cases text with
  | nil => exact absurd rfl h
  | cons first rest =>
    rw [scan]
    dsimp only
    split <;> simp only [Cut.cons, ne_eq, reduceCtorEq, not_false_eq_true]

end Number

end PhpAssist

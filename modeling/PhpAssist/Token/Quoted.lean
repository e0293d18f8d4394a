import PhpAssist.Token.Cut

/-!
# Quoted strings

A quoted string ends at its quote, but a double quoted string may hold code between braces, and
that code may hold strings of its own. What is open at a character is a stack: strings waiting
for their quote, and braces waiting for theirs. Keeping that stack beside the text lets one pass
over the characters find the end, whatever the nesting.

A backslash in a string takes the next character with it. Between braces it is a character like
any other.

## Main definitions

* `Quoted.Open`: A string or a run of braces that is not closed yet.
* `Quoted.close`: Takes a text up to where everything open is closed.
* `Quoted.scan`: Takes a whole quoted string.

## Theorems

* `Quoted.splits_close`, `Quoted.splits_scan`: The scanners split the text.
-/

namespace PhpAssist

namespace Quoted

/-- Something that waits to be closed: a string for its quote, or code in braces for as many
    closing braces as are open. -/
inductive Open where
  | quote (mark : Char)
  | braces (depth : Nat)

/-- Takes a text up to and including the character that closes the last open thing. -/
def close : List Open → Text → Cut
  | [], text => ⟨[], text, true⟩
  | _ :: _, [] => ⟨[], [], false⟩
  | .quote mark :: outer, '\\' :: rest =>
    match rest with
    | [] => ⟨['\\'], [], false⟩
    | c :: rest => ((close (.quote mark :: outer) rest).cons c).cons '\\'
  | .quote mark :: outer, c :: rest =>
    -- Only double quotes hold code, and only a brace right before a dollar sign opens it.
    if c = '{' ∧ mark = '"' ∧ rest.head? = some '$' then
      (close (.braces 1 :: .quote mark :: outer) rest).cons c
    else if c = mark then
      (close outer rest).cons c
    else
      (close (.quote mark :: outer) rest).cons c
  | .braces depth :: outer, c :: rest =>
    if c = '{' then
      (close (.braces (depth + 1) :: outer) rest).cons c
    else if c = '}' then
      -- The last brace gives the text back to the string around the code.
      (close (if depth ≤ 1 then outer else .braces (depth - 1) :: outer) rest).cons c
    else if c = '\'' ∨ c = '"' then
      (close (.quote c :: .braces depth :: outer) rest).cons c
    else
      (close (.braces depth :: outer) rest).cons c

/-- Takes a string from its opening quote on, the quote being the first character. -/
def scan : Text → Cut
  | [] => ⟨[], [], false⟩
  | mark :: rest => (close [.quote mark] rest).cons mark

theorem splits_close (stack : List Open) (text : Text) : (close stack text).Splits text := by
  fun_induction close stack text with
  | case1 text => rfl
  | case2 => rfl
  | case3 => rfl
  | case4 mark outer c rest ih => exact (ih.cons c).cons '\\'
  | case5 mark outer c rest _ _ ih => exact ih.cons c
  | case6 outer c rest _ _ ih => exact ih.cons _
  | case7 mark outer c rest _ _ _ ih => exact ih.cons c
  | case8 depth outer rest ih => exact ih.cons _
  | case9 depth outer rest _ ih => exact ih.cons _
  | case10 depth outer c rest _ _ _ ih => exact ih.cons _
  | case11 depth outer c rest _ _ _ ih => exact ih.cons c

theorem splits_scan (text : Text) : (scan text).Splits text := by
  cases text with
  | nil => rfl
  | cons mark rest => exact (splits_close [.quote mark] rest).cons mark

end Quoted

end PhpAssist

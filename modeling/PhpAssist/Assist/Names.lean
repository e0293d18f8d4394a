import PhpAssist.Tree.Node

/-!
# Fresh variable names

An assist that introduces a variable must not hit one that is there. The names in use are those
of the variables in the code and of those that strings mention after a dollar sign. A base name
that is in use gets a number, and the first number that makes it free is taken.

## Main definitions

* `Names.mentioned`: The names after dollar signs in a text.
* `Names.ofTokens`: The names in use in some code.
* `Names.fresh`: A free name, and the names in use with it.
-/

namespace PhpAssist

/-- Variable names in use, without their dollar signs. -/
structure Names where
  taken : List Text

namespace Names

/-- The names that stand after a dollar sign in a text. -/
def mentioned : Text → List Text
  | [] => []
  | '$' :: rest =>
    if rest.head?.any Text.isIdentStart then
      rest.takeWhile Text.isIdentContinue :: mentioned rest
    else mentioned rest
  | _ :: rest => mentioned rest

/-- The names that a token uses. -/
def ofToken (token : Token) : List Text :=
  match token.kind with
  | .variableName => [token.text.dropWhile (· == '$')]
  | .doubleQuotedString | .heredocString => mentioned token.text
  | _ => []

/-- The names in use in some code. -/
def ofTokens (tokens : List Token) : Names := ⟨tokens.flatMap ofToken⟩

/-- The names in use under a root. -/
def of (root : Node) : Names := ofTokens root.tree.significant

/-- The names to try for a base: the base, then the base with 2, 3 and so on. -/
def candidate (base : Text) : Nat → Text
  | 0 => base
  | n + 1 => base ++ '_' :: Text.ofNat (n + 2)

/-- The first candidate that is free. One more candidate than there are names in use are tried,
    so one of them is free. -/
def free (names : Names) (base : Text) : Text :=
  let candidates := (List.range (names.taken.length + 1)).map (candidate base)
  (candidates.find? fun name => !names.taken.contains name).getD base

/-- Takes a free name made from a base. -/
def fresh (names : Names) (base : Text) : Text × Names :=
  (names.free base, ⟨names.free base :: names.taken⟩)

end Names

end PhpAssist

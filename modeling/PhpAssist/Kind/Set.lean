import PhpAssist.Kind

/-!
# Sets of kinds

The parser decides what may come next by asking whether the kind of the next token lies in a
fixed set. A set is the number whose binary digits mark its members, so that two sets with the
same members are equal and a union is one operation on numbers.

## Main definitions

* `KindSet`: A set of kinds.
* `KindSet.contains`: Membership.
* `KindSet.ofList`, `KindSet.union`: Building sets.
* `KindSet.members`: The members in the order of the enumeration.
-/

namespace PhpAssist

/-- A set of kinds, as the number with one binary digit for each kind. -/
structure KindSet where
  mask : Nat
  deriving DecidableEq

namespace KindSet

/-- No kind. -/
def empty : KindSet := ⟨0⟩

/-- One kind, told by the bit with its number. -/
def singleton (kind : Kind) : KindSet := ⟨1 <<< kind.number⟩

/-- The kinds that are in one of two sets. -/
def union (a b : KindSet) : KindSet := ⟨a.mask ||| b.mask⟩

/-- The kinds of a list. -/
def ofList (kinds : List Kind) : KindSet :=
  kinds.foldl (fun set kind => set.union (singleton kind)) empty

/-- A kind is in a set. -/
def contains (set : KindSet) (kind : Kind) : Bool :=
  set.mask.testBit kind.number

/-- The members, in the order of the enumeration. -/
def members (set : KindSet) : List Kind :=
  Kind.all.filter set.contains

end KindSet

end PhpAssist

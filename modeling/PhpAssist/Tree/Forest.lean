import PhpAssist.Tree

/-!
# Growing trees

A tree grows from its leaves. What is finished so far is a row of trees; a token adds one to the
row, and closing a node puts the last few of them under it. Where a node began is remembered by
the number of trees in the row at that moment.

## Main definitions

* `Forest`: The row of trees that are finished.
* `Forest.count`: Where a node that begins now begins.
* `Forest.push`, `Forest.close`: Adding a tree, and closing a node.

## Theorems

* `Forest.trees_push`, `Forest.trees_close`: What the two operations do to the row.
-/

namespace PhpAssist

/-- The row of finished trees, the latest first. -/
structure Forest where
  latest : List Tree

namespace Forest

/-- No trees. -/
def empty : Forest := ⟨[]⟩

/-- The finished trees from left to right. -/
def trees (forest : Forest) : List Tree := forest.latest.reverse

/-- The number of finished trees, which is where a node that begins now begins. -/
def count (forest : Forest) : Nat := forest.latest.length

/-- Adds a finished tree. -/
def push (forest : Forest) (tree : Tree) : Forest := ⟨tree :: forest.latest⟩

/-- Closes the node that began behind so many trees. Everything finished since then goes under
    it. -/
def close (forest : Forest) (start : Nat) (kind : Kind) : Forest :=
  let inside := forest.latest.length - start
  ⟨.node kind (forest.latest.take inside).reverse :: forest.latest.drop inside⟩

theorem trees_push (forest : Forest) (tree : Tree) :
    (forest.push tree).trees = forest.trees ++ [tree] := by
  simp only [trees, push, List.reverse_cons]

/-- Closing a node that began before the last few trees puts exactly those under it. -/
theorem trees_close (before after : List Tree) (kind : Kind) :
    (Forest.close ⟨(before ++ after).reverse⟩ before.length kind).trees =
      before ++ [.node kind after] := by
  simp [close, trees]

end Forest

end PhpAssist

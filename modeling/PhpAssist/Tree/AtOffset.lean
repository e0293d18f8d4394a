import PhpAssist.Bisect
import PhpAssist.Tree.Node

/-!
# The tokens at an offset

An offset lies in a token, or between two. Trivia counts for the token it is attached to, so an
offset in a comment belongs to the token the comment belongs to.

## Main definitions

* `Stretch`: A stretch of text in place, with the token that owns it.
* `AtOffset`: No token, one token, or the two tokens that meet at an offset.
* `Node.leavesAt`: The tokens of a node at an offset.
* `AtOffset.best?`: The token that matters most.
-/

namespace PhpAssist

/-- A stretch of text in place: a token or a piece of its trivia. -/
structure Stretch where
  span : Span
  owner : Leaf

/-- The stretches of a token: its leading trivia, its text, its trailing trivia. -/
def Leaf.stretches (leaf : Leaf) : List Stretch :=
  (leaf.leading.map (·.2) ++ leaf.span :: leaf.trailing.map (·.2)).map fun span => ⟨span, leaf⟩

/-- The stretches of all tokens below a node. -/
def Node.stretches (node : Node) : List Stretch := node.leaves.flatMap Leaf.stretches

/-- The tokens at an offset. -/
inductive AtOffset where
  | none
  | single (leaf : Leaf)
  | between (left right : Leaf)

namespace AtOffset

/-- The tokens from left to right. -/
def toList : AtOffset → List Leaf
  | .none => []
  | .single leaf => [leaf]
  | .between left right => [left, right]

/-- The token whose kind has the highest priority; the right one when both have the same. -/
def best? (priority : Kind → Nat) : AtOffset → Option Leaf
  | .none => Option.none
  | .single leaf => some leaf
  | .between left right => some (if priority left.kind ≤ priority right.kind then right else left)

end AtOffset

/-- The tokens of a node at an offset. Only the first stretch that does not end before the
    offset, and the one behind it, can touch the offset and belong to different tokens. Stretches
    that end before the offset stand in front of the others, so the first that does not is searched
    for by halves. -/
def Node.leavesAt (node : Node) (offset : Nat) : AtOffset :=
  if node.fullSpan.touches offset then
    let row := node.stretches
    let index := Bisect.point (fun stretch => stretch.span.stop < offset) row
    match row[index]? with
    | none => .none
    | some first =>
      if offset < first.span.start then .none
      else
        match row[index + 1]? with
        | none => .single first.owner
        | some next =>
          -- A token and its own trivia meet at many offsets and count as one.
          if first.span.stop = offset ∧ next.span.start = offset
              ∧ first.owner.number ≠ next.owner.number then
            .between first.owner next.owner
          else .single first.owner
  else .none

end PhpAssist

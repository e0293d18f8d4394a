import PhpAssist.Text.Printable
import PhpAssist.Tree.Node

/-!
# Outlines

An outline lists what a tree is made of, parents before children, each line telling how deep it
lies. There are two: one as data, and one as text for people, which shows the text of every
token and leaves out the token for the end of the text.

## Main definitions

* `Outline.Line`, `Node.outline`: The outline as data.
* `Node.dump`: The outline as text.
-/

namespace PhpAssist

namespace Element

/-- The kind of a child. -/
def kind : Element → Kind
  | .node it => it.kind
  | .leaf it => it.kind

/-- Where the element stands, without the trivia at its ends. -/
def span : Element → Span
  | .node it => it.span
  | .leaf it => it.span

/-- The number of nodes around the element. -/
def depth : Element → Nat
  | .node it => it.parents.length
  | .leaf it => it.parents.length

/-- Whether the element is a leaf of trivia. -/
def isTrivia : Element → Bool
  | .node _ => false
  | .leaf it => it.isTrivia

end Element

/-- A span as text. -/
def Span.display (span : Span) : String := toString span.start ++ ".." ++ toString span.stop

namespace Outline

/-- A line of an outline: how deep a node or token lies, what it is, and where it stands. -/
structure Line where
  depth : Nat
  kind : Kind
  span : Span

/-- A line as text: a token is shown with what it says. -/
def render (base : Nat) (element : Element) : String :=
  let indent := String.ofList (List.replicate (2 * (element.depth - base)) ' ')
  let head := indent ++ element.kind.label ++ "@" ++ element.span.display
  match element with
  | .node _ => head ++ "\n"
  | .leaf leaf => head ++ " " ++ String.ofList (Text.display leaf.token.text) ++ "\n"

end Outline

/-- The nodes and tokens of a tree, parents before children. -/
def Node.outline (node : Node) : List Outline.Line :=
  (node.subtree.filter (!·.isTrivia)).map fun element =>
    ⟨element.depth, element.kind, element.span⟩

/-- The nodes and tokens of a tree as text, one to a line. -/
def Node.dump (node : Node) : String :=
  let shown := node.subtree.filter fun element => element.kind != .endOfFile || element.leaf?.isNone
  String.join (shown.map (Outline.render node.parents.length))

end PhpAssist

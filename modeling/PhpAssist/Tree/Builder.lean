import PhpAssist.Tree.Forest
import PhpAssist.Tree.Node

/-!
# Building a tree by steps

A tree can be given by steps over a text: a node starts, a token of so many bytes is taken, the
last node started is finished. The steps have to make sense: there is one root, tokens lie in a
node, a token ends where a character ends, and every node that starts is finished. Each way of
breaking this has a name, and so have the two ways in which a log gives no steps at all.

## Main definitions

* `Builder.Step`: One step.
* `Builder.Misuse`: The ways in which steps make no sense.
* `Builder`: What is left of the text, the trees finished so far and the nodes still open.
* `Builder.run`: Builds a tree.
* `SourceTree`: A text and the root of its tree.
-/

namespace PhpAssist

/-- A text and the root of its tree. -/
structure SourceTree where
  text : Text
  root : Node

/-- A one-line summary of a tree: how long its text is. -/
def SourceTree.summary (tree : SourceTree) : String :=
  "SyntaxTree \x7b text_len: " ++ toString tree.text.size ++ ", .. \x7d"

/-- Whether the tree holds its whole text and nothing else. -/
def SourceTree.isLossless (tree : SourceTree) : Bool := tree.root.tree.fullText == tree.text

/-- A tree in the making. `opened` are the nodes still open, the innermost first. -/
structure Builder where
  rest : Text
  forest : Forest
  opened : List (Nat × Kind)

namespace Builder

/-- A piece of trivia of a number of bytes. -/
abbrev TriviaSize := TriviaKind × Nat

/-- A step in building a tree. -/
inductive Step where
  | start (kind : Kind)
  | token (leading : List TriviaSize) (kind : Kind) (size : Nat) (trailing : List TriviaSize)
  | finish

/-- The ways in which steps make no sense, and in which a log makes none: a marker that stands at
    no start, and a link that leads to none. -/
inductive Misuse where
  | secondRoot
  | outsideOfNode
  | offBoundary
  | unfinished
  | empty
  | misplacedMarker
  | brokenLink
  deriving DecidableEq

/-- Takes bytes of the text that is left. -/
def take (rest : Text) (size : Nat) : Except Misuse (Text × Text) :=
  match Text.splitAt? size rest with
  | some parts => .ok parts
  | none => .error .offBoundary

/-- Takes pieces of trivia of the text that is left. -/
def takeTrivia : Text → List TriviaSize → Except Misuse (List Trivia × Text)
  | rest, [] => .ok ([], rest)
  | rest, (kind, size) :: more => do
    let (text, rest) ← take rest size
    let (pieces, rest) ← takeTrivia rest more
    return (⟨kind, text⟩ :: pieces, rest)

/-- A builder that has not taken a step. -/
def begin (text : Text) : Builder := ⟨text, .empty, []⟩

/-- Takes a step. -/
def step (builder : Builder) : Step → Except Misuse Builder
  | .start kind =>
    if builder.opened.isEmpty && !builder.forest.latest.isEmpty then .error .secondRoot
    else .ok { builder with opened := (builder.forest.count, kind) :: builder.opened }
  | .token leading kind size trailing =>
    if builder.opened.isEmpty then .error .outsideOfNode
    else do
      let (before, rest) ← takeTrivia builder.rest leading
      let (text, rest) ← take rest size
      let (behind, rest) ← takeTrivia rest trailing
      return { builder with
        rest
        forest := builder.forest.push (.token ⟨before, kind, text, behind⟩) }
  | .finish =>
    match builder.opened with
    | [] => .error .outsideOfNode
    | (start, kind) :: opened =>
      .ok { builder with forest := builder.forest.close start kind, opened }

/-- The finished tree. -/
def finish (builder : Builder) : Except Misuse Node :=
  if builder.opened.isEmpty then
    match builder.forest.latest with
    | .node kind children :: _ => .ok (.root kind children)
    | _ => .error .empty
  else .error .unfinished

/-- Builds a tree over a text by steps. -/
def run (text : Text) (steps : List Step) : Except Misuse SourceTree := do
  let builder ← steps.foldlM step (begin text)
  return ⟨text, ← builder.finish⟩

end Builder

end PhpAssist

import PhpAssist.Tree.Builder

/-!
# Trees in tables

A tree can be kept in three rows: its tokens with every piece of trivia in a row of their own, its
nodes in the order in which they start, and the children of all nodes. A node names the stretch of
the third row that its children take, and the stretch of the first row that it covers; a token
counts the pieces of trivia on both of its sides.

Such a table is built by the same steps as a tree. Nodes are numbered when they start, but their
children go into the row when they finish, so while a node is open its children are kept beside it.
The lists they are kept in are handed on from one node to the next.

Numbers and offsets have no bound here. Where they are kept in 32 bits, a tree that is too large for
them is refused, which no step here is for.

## Main definitions

* `Table`: A tree in three rows.
* `Table.childrenOf`, `Table.nodeSpan`, `Table.tokenSpan`: What the rows say.
* `Table.Draft`: A table in the making.
* `Table.Draft.step`, `Table.build`: Building a table by steps.
-/

namespace PhpAssist

namespace Table

/-- A child of a node, by its number among the nodes or among the tokens. -/
inductive Child where
  | node (index : Nat)
  | token (index : Nat)
  deriving DecidableEq

/-- The number of the node that a child is. -/
def Child.node? : Child → Option Nat
  | .node index => some index
  | .token _ => none

/-- A token or a piece of trivia. `owner` is the token that a piece of trivia belongs to, and the
    number of the token itself for a token. -/
structure Cell where
  kind : Kind
  span : Span
  parent : Nat
  owner : Nat
  leading : Nat
  trailing : Nat
  deriving DecidableEq

/-- A node, with the stretch of children that it has and the stretch of tokens that it covers.
    `offset` is where it starts in the text, and says where it stands when it covers nothing. -/
structure Entry where
  kind : Kind
  parent? : Option Nat
  childrenStart : Nat
  childrenLength : Nat
  tokensStart : Nat
  tokensEnd : Nat
  offset : Nat
  deriving DecidableEq

end Table

/-- A tree in three rows. -/
structure Table where
  text : Text
  tokens : List Table.Cell
  nodes : List Table.Entry
  children : List Table.Child
  deriving DecidableEq

namespace Table

section Rows

variable (table : Table)

/-- The children of a node. -/
def childrenOf (entry : Entry) : List Child :=
  (table.children.drop entry.childrenStart).take entry.childrenLength

/-- Where the token or the piece of trivia with a number stands. -/
def cellSpan (index : Nat) : Span := (table.tokens[index]?.map Cell.span).getD default

/-- Where a token and its trivia stand. -/
def tokenSpan (index : Nat) : Span :=
  match table.tokens[index]? with
  | some cell =>
    .cover (table.cellSpan (index - cell.leading)) (table.cellSpan (index + cell.trailing))
  | none => default

/-- Where a node stands, its trivia included. -/
def nodeSpan (entry : Entry) : Span :=
  if entry.tokensStart = entry.tokensEnd then .empty entry.offset
  else .cover (table.cellSpan entry.tokensStart) (table.cellSpan (entry.tokensEnd - 1))

/-- Where a child stands, its trivia included. -/
def childSpan : Child → Span
  | .node index => (table.nodes[index]?.map table.nodeSpan).getD default
  | .token index => table.tokenSpan index

end Rows

/-! ## Building -/

/-- A node that was started and not finished, with the children that it has so far. -/
structure Opened where
  node : Nat
  children : List Child
  deriving DecidableEq

/-- A table in the making. `opened` are the nodes still open, the innermost first, `spare` the lists
    of children that are handed on, and `size` is how much of the text was taken. -/
structure Draft where
  text : Text
  tokens : List Cell
  nodes : List Entry
  children : List Child
  opened : List Opened
  spare : List (List Child)
  size : Nat

namespace Draft

/-- A table in the making without any record. -/
def begin (text : Text) : Draft := ⟨text, [], [], [], [], [], 0⟩

/-- Adds a child to the innermost open node. -/
def adopt (child : Child) : List Opened → List Opened
  | [] => []
  | innermost :: outer => { innermost with children := innermost.children ++ [child] } :: outer

/-- Starts a node. -/
def startNode (draft : Draft) (kind : Kind) : Except Builder.Misuse Draft :=
  if draft.opened.isEmpty && !draft.nodes.isEmpty then .error .secondRoot
  else
    let entry : Entry :=
      { kind
        parent? := draft.opened.head?.map Opened.node
        childrenStart := 0
        childrenLength := 0
        tokensStart := draft.tokens.length
        tokensEnd := draft.tokens.length
        offset := draft.size }
    .ok { draft with
      nodes := draft.nodes ++ [entry]
      opened := ⟨draft.nodes.length, draft.spare.headD []⟩ ::
        adopt (.node draft.nodes.length) draft.opened
      spare := draft.spare.tail }

/-- Finishes the node that was started last. Its list of children is emptied into the row. -/
def finishNode (draft : Draft) : Except Builder.Misuse Draft :=
  match draft.opened with
  | [] => .error .outsideOfNode
  | innermost :: outer =>
    .ok { draft with
      nodes := draft.nodes.modify innermost.node fun entry =>
        { entry with
          childrenStart := draft.children.length
          childrenLength := innermost.children.length
          tokensEnd := draft.tokens.length }
      children := draft.children ++ innermost.children
      opened := outer
      spare := [] :: draft.spare }

/-- Takes bytes of the text, up to where a character ends. -/
def advance (draft : Draft) (size : Nat) : Except Builder.Misuse (Span × Draft) :=
  if (Text.splitAt? (draft.size + size) draft.text).isSome then
    .ok (⟨draft.size, size⟩, { draft with size := draft.size + size })
  else .error .offBoundary

/-- Takes a piece of trivia that belongs to a token. -/
def pushTrivia (parent owner : Nat) (draft : Draft) (piece : Builder.TriviaSize) :
    Except Builder.Misuse Draft := do
  let (span, draft) ← draft.advance piece.2
  return { draft with tokens := draft.tokens ++ [⟨piece.1.kind, span, parent, owner, 0, 0⟩] }

/-- Takes a token with its trivia. -/
def pushToken (draft : Draft) (leading : List Builder.TriviaSize) (kind : Kind) (size : Nat)
    (trailing : List Builder.TriviaSize) : Except Builder.Misuse Draft :=
  match draft.opened with
  | [] => .error .outsideOfNode
  | innermost :: _ => do
    let parent := innermost.node
    let owner := draft.tokens.length + leading.length
    let draft ← leading.foldlM (pushTrivia parent owner) draft
    let (span, draft) ← draft.advance size
    let cell : Cell := ⟨kind, span, parent, owner, leading.length, trailing.length⟩
    trailing.foldlM (pushTrivia parent owner)
      { draft with
        tokens := draft.tokens ++ [cell]
        opened := adopt (.token owner) draft.opened }

/-- Takes a step. -/
def step (draft : Draft) : Builder.Step → Except Builder.Misuse Draft
  | .start kind => draft.startNode kind
  | .token leading kind size trailing => draft.pushToken leading kind size trailing
  | .finish => draft.finishNode

/-- The rows as they are. -/
def table (draft : Draft) : Table := ⟨draft.text, draft.tokens, draft.nodes, draft.children⟩

/-- The finished table. -/
def finish (draft : Draft) : Except Builder.Misuse Table :=
  if draft.opened.isEmpty then
    if draft.nodes.isEmpty then .error .empty else .ok draft.table
  else .error .unfinished

end Draft

/-- Builds a table over a text by steps. -/
def build (text : Text) (steps : List Builder.Step) : Except Builder.Misuse Table := do
  let draft ← steps.foldlM Draft.step (Draft.begin text)
  draft.finish

end Table

end PhpAssist

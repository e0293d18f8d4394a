import PhpAssist.Proofs.Bytes
import PhpAssist.Tree.Log

/-!
# Replaying a log

A log is not a tree written down from left to right. The start of an operator's node comes behind
its left operand, and only a link from the operand says that the node begins in front of it. What
a log tells of is therefore defined here by how it came about: a token was noted, a node was
started and completed with a row of trees in between, or a node was started around the one that
was completed last. `Writes` and `WritesNode` say which events tell of which trees in this sense.

The events of a node are split at its own start, because that is the place a later link is put.
The part in front of it is empty unless the node was started around an operand, and then it holds
the whole operand.

Replaying such events never meets a link that leads nowhere, and gives the steps that write the
trees down from left to right. The steps of a tree in turn build that tree over any text that
begins with the text of its leaves.

## Main definitions

* `Tree.steps`: The steps that build a tree.
* `Event.Writes`, `Event.WritesNode`: The events that tell of a row of trees, and of a node.

## Theorems

* `bind_eq_ok`: A value comes out of two steps when it comes out of both.
* `Event.follow_append`: A link passes over the events it has to pass over.
* `Event.replay_writes`: Events that tell of a row replay to the steps of the row.
* `Builder.foldlM_stepsOf`: The steps of a row add the row to a tree in the making.
* `Log.build_node`: A log that tells of one node builds it.
-/

namespace PhpAssist

/-- A value comes out of two steps when it comes out of both. -/
theorem bind_eq_ok {ε α β : Type} {first : Except ε α} {next : α → Except ε β} {result : β}
    (h : first >>= next = .ok result) : ∃ value, first = .ok value ∧ next value = .ok result := by
  cases first with
  | error cause =>
    exact absurd h (by simp only [bind, Except.bind, reduceCtorEq, not_false_eq_true])
  | ok value => exact ⟨value, rfl, h⟩

namespace Tree

mutual

/-- The steps that build a tree. -/
def steps : Tree → List Builder.Step
  | .token tok => [Event.tokenStep tok]
  | .node kind children => .start kind :: (stepsOf children ++ [.finish])

/-- The steps that build a row of trees. -/
def stepsOf : List Tree → List Builder.Step
  | [] => []
  | tree :: more => tree.steps ++ stepsOf more

end

theorem tokensOf_append (row more : List Tree) :
    tokensOf (row ++ more) = tokensOf row ++ tokensOf more := by
  simp only [tokensOf_eq_flatMap, List.flatMap_append]

theorem tokensOf_singleton (tree : Tree) : tokensOf [tree] = tree.tokens := by
  simp only [tokensOf, List.append_nil]

end Tree

namespace Event

mutual

/-- Events that tell of a row of trees. -/
inductive Writes : List Event → List Tree → Prop
  | nil : Writes [] []
  | token (tok : Token) {events : List Event} {row : List Tree} (more : Writes events row) :
      Writes (.token tok :: events) (.token tok :: row)
  | node {before behind events : List Event} {kind : Kind} {children row : List Tree}
      (first : WritesNode before kind behind children) (more : Writes events row) :
      Writes (before ++ .start kind none :: (behind ++ events)) (.node kind children :: row)

/-- Events that tell of a node: those before its start and those behind it. -/
inductive WritesNode : List Event → Kind → List Event → List Tree → Prop
  | plain {kind : Kind} {children : List Tree} (events : List Event) (hkind : kind ≠ .tombstone)
      (inside : Writes events children) : WritesNode [] kind (events ++ [.finish]) children
  | around {before behind : List Event} {kind first : Kind} {firsts children : List Tree}
      (events : List Event) (hkind : kind ≠ .tombstone) (operand : WritesNode before first behind firsts)
      (inside : Writes events children) :
      WritesNode (before ++ .start first (some behind.length) :: behind) kind
        (events ++ [.finish]) (.node first firsts :: children)

end

theorem Writes.append {events more : List Event} {row rows : List Tree} (h : Writes events row)
    (hmore : Writes more rows) : Writes (events ++ more) (row ++ rows) :=
  match h with
  | .nil => hmore
  | .token tok rest => .token tok (rest.append hmore)
  | .node first rest => by
    have happend := Writes.node first (rest.append hmore)
    simpa only [List.append_assoc, List.cons_append] using happend

/-- A link over some events and `between` more passes over the first ones and leaves them as they
    are. -/
theorem follow_append {between : Nat} {rest left : List Event} {kinds : List Kind}
    (events : List Event) (h : follow between rest = .ok (kinds, left)) :
    follow (events.length + between) (events ++ rest) = .ok (kinds, events ++ left) := by
  induction events with
  | nil => rwa [List.length_nil, Nat.zero_add]
  | cons event events ih =>
    rw [List.length_cons, show events.length + 1 + between = events.length + between + 1 by omega,
      List.cons_append, follow, ih]
    rfl

theorem startSteps_nil : startSteps [] = [] := rfl

theorem startSteps_cons {kind : Kind} (kinds : List Kind) (hkind : kind ≠ .tombstone) :
    startSteps (kind :: kinds) = startSteps kinds ++ [Builder.Step.start kind] := by
  have hfilter : (kind != Kind.tombstone) = true := bne_iff_ne.mpr hkind
  simp only [startSteps, List.filter_cons, hfilter, if_true, List.reverse_cons, List.map_append,
    List.map_cons, List.map_nil]

/-- A start that had its turn is passed over. -/
theorem replay_unmarked (rest : List Event) : replay (unmarked :: rest) = replay rest := by
  rw [unmarked, replay, if_pos rfl]

theorem replay_finish {rest : List Event} {steps : List Builder.Step}
    (hrest : replay rest = .ok steps) : replay (.finish :: rest) = .ok (.finish :: steps) := by
  rw [replay, hrest]
  rfl

theorem replay_start_none {kind : Kind} {rest : List Event} {steps : List Builder.Step}
    (hkind : kind ≠ .tombstone) (hrest : replay rest = .ok steps) :
    replay (.start kind none :: rest) = .ok (.start kind :: steps) := by
  rw [replay, if_neg hkind]
  simp only [followFrom, hrest, startSteps_cons [] hkind]
  rfl

theorem replay_start_some {kind : Kind} {between : Nat} {rest left : List Event}
    {kinds : List Kind} {steps : List Builder.Step} (hkind : kind ≠ .tombstone)
    (hfollow : follow between rest = .ok (kinds, left)) (hleft : replay left = .ok steps) :
    replay (.start kind (some between) :: rest) =
      .ok (startSteps kinds ++ .start kind :: steps) := by
  rw [replay, if_neg hkind]
  -- Following the links succeeds by assumption.
  split
  · rename_i misuse hmisuse
    rw [followFrom, hfollow] at hmisuse
    exact absurd hmisuse (by simp only [reduceCtorEq, not_false_eq_true])
  · rename_i found rest' hfound
    rw [followFrom, hfollow] at hfound
    injection hfound with hfound
    injection hfound with hkinds hrest
    rw [← hkinds, ← hrest, hleft, startSteps_cons kinds hkind]
    simp only [bind, Except.bind, pure, Except.pure, List.append_assoc, List.singleton_append]

mutual

/-- Events that tell of a row replay to the steps of the row, and what is behind them is replayed
    next. -/
theorem replay_writes {events : List Event} {row : List Tree} (h : Writes events row)
    {rest : List Event} {steps : List Builder.Step} (hrest : replay rest = .ok steps) :
    replay (events ++ rest) = .ok (Tree.stepsOf row ++ steps) :=
  match h with
  | .nil => hrest
  | .token tok more => by
    rw [List.cons_append, replay, replay_writes more hrest]
    rfl
  | .node first more => by
    have hmore := replay_writes more hrest
    have hfirst := replay_writesNode first hmore
    simpa only [List.append_assoc, List.cons_append, Tree.stepsOf] using hfirst

/-- A node that nothing links to is replayed in its turn. -/
theorem replay_writesNode {before behind : List Event} {kind : Kind} {children : List Tree}
    (h : WritesNode before kind behind children) {rest : List Event} {steps : List Builder.Step}
    (hrest : replay rest = .ok steps) :
    replay (before ++ .start kind none :: (behind ++ rest)) =
      .ok ((Tree.node kind children).steps ++ steps) :=
  match h with
  | .plain _ hkind inside => by
    have hinside := replay_writes inside (replay_finish hrest)
    rw [List.nil_append, List.append_assoc, List.singleton_append,
      replay_start_none hkind hinside, Tree.steps, List.cons_append, List.append_assoc,
      List.singleton_append]
  | .around inner hkind operand inside => by
    have hinside := replay_writes inside (replay_finish hrest)
    -- The link leads over the operand to this very node and undoes its start.
    have hlink : follow 0 (.start kind none :: (inner ++ .finish :: rest)) =
        .ok ([kind], unmarked :: (inner ++ .finish :: rest)) := rfl
    have hwhole := replay_linked operand hlink ((replay_unmarked _).trans hinside)
    simpa only [Nat.add_zero, List.append_assoc, List.cons_append, List.singleton_append,
      List.nil_append, Tree.steps, Tree.stepsOf, startSteps_cons [] hkind, startSteps_nil]
      using hwhole

/-- A node with a link is replayed behind the starts that the link leads to. -/
theorem replay_linked {before behind : List Event} {kind : Kind} {children : List Tree}
    (h : WritesNode before kind behind children) {between : Nat} {rest left : List Event}
    {kinds : List Kind} {steps : List Builder.Step}
    (hfollow : follow between rest = .ok (kinds, left)) (hleft : replay left = .ok steps) :
    replay (before ++ .start kind (some (behind.length + between)) :: (behind ++ rest)) =
      .ok (startSteps kinds ++ (Tree.node kind children).steps ++ steps) :=
  match h with
  | .plain inner hkind inside => by
    have hinside := replay_writes inside (replay_finish hleft)
    have hpassed := follow_append (inner ++ [Event.finish]) hfollow
    rw [List.append_assoc inner _ left, List.singleton_append] at hpassed
    rw [List.nil_append, replay_start_some hkind hpassed hinside, Tree.steps]
    simp only [List.append_assoc, List.cons_append, List.nil_append]
  | .around inner hkind operand inside => by
    have hinside := replay_writes inside (replay_finish hleft)
    have hpassed := follow_append (inner ++ [Event.finish]) hfollow
    -- The link of the operand leads to this node, and the link of this node leads on.
    have hlink : follow 0 (.start kind (some ((inner ++ [Event.finish]).length + between)) ::
        ((inner ++ [Event.finish]) ++ rest)) =
        .ok (kind :: kinds, unmarked :: ((inner ++ [Event.finish]) ++ left)) := by
      rw [follow, hpassed]
      rfl
    rw [← List.singleton_append, ← List.append_assoc] at hinside
    have hwhole := replay_linked operand hlink ((replay_unmarked _).trans hinside)
    simpa only [Nat.add_zero, List.append_assoc, List.cons_append, List.singleton_append,
      List.nil_append, Tree.steps, Tree.stepsOf, startSteps_cons kinds hkind] using hwhole

end

end Event
namespace Tree

theorem fullText_token (tok : Token) : (Tree.token tok).fullText = tok.fullText := by
  rw [fullText, tokens, List.flatMap_singleton]

/-- The text of a row of trees, trivia included. -/
def fullTextOf (row : List Tree) : Text := (tokensOf row).flatMap Token.fullText

theorem fullTextOf_cons (tree : Tree) (more : List Tree) :
    fullTextOf (tree :: more) = tree.fullText ++ fullTextOf more := by
  rw [fullTextOf, tokensOf, List.flatMap_append, fullText, fullTextOf]

theorem fullText_node (kind : Kind) (children : List Tree) :
    (Tree.node kind children).fullText = fullTextOf children := by
  rw [fullText, tokens, fullTextOf]

end Tree

namespace Builder

theorem take_size (text rest : Text) : take (text ++ rest) (Text.size text) = .ok (text, rest) := by
  rw [take, Text.splitAt?_size]

/-- The pieces of trivia as their sizes, which is what a step tells of them. -/
theorem takeTrivia_sizes (trivia : List Trivia) (rest : Text) :
    takeTrivia (trivia.flatMap Trivia.text ++ rest)
      (trivia.map fun piece => (piece.kind, Text.size piece.text)) = .ok (trivia, rest) := by
  induction trivia with
  | nil => rfl
  | cons piece trivia ih =>
    rw [List.flatMap_cons, List.append_assoc, List.map_cons, takeTrivia, take_size]
    simp only [bind, Except.bind, ih, pure, Except.pure]

/-- A token is taken whole where the text goes on with it. -/
theorem step_token {builder : Builder} {tok : Token} {rest : Text}
    (hopened : builder.opened.isEmpty = false)
    (hrest : builder.rest = tok.fullText ++ rest) :
    builder.step (Event.tokenStep tok) =
      .ok { builder with rest, forest := builder.forest.push (.token tok) } := by
  have hleading := takeTrivia_sizes tok.leading (tok.text ++ (tok.trailingText ++ rest))
  have htext := take_size tok.text (tok.trailingText ++ rest)
  have htrailing := takeTrivia_sizes tok.trailing rest
  -- The sizes of the pieces cut the text at their borders.
  have hsplit : builder.rest =
      tok.leading.flatMap Trivia.text ++ (tok.text ++ (tok.trailingText ++ rest)) := by
    rw [hrest, Token.fullText, Token.leadingText, List.append_assoc, List.append_assoc]
  rw [Token.trailingText] at hleading htext hsplit
  rw [Event.tokenStep, step, hopened, hsplit]
  simp only [bind, Except.bind, pure, Except.pure, hleading, htext, htrailing, Bool.false_eq_true,
    if_false]

/-- A tree in the making to which a row of trees was added. -/
def grown (builder : Builder) (row : List Tree) (rest : Text) : Builder :=
  { builder with rest, forest := ⟨row.reverse ++ builder.forest.latest⟩ }

theorem grown_grown (builder : Builder) (row more : List Tree) (rest rest' : Text) :
    (builder.grown row rest).grown more rest' = builder.grown (row ++ more) rest' := by
  simp only [grown, List.reverse_append, List.append_assoc]

/-- Finishing the node that was started before a row puts the row under it. -/
theorem step_finish (builder : Builder) (kind : Kind) (row : List Tree) (rest : Text) :
    (grown { builder with opened := (builder.forest.count, kind) :: builder.opened } row
        rest).step .finish = .ok (builder.grown [.node kind row] rest) := by
  have hinside : (row.reverse ++ builder.forest.latest).length - builder.forest.latest.length =
      row.reverse.length := by
    rw [List.length_append]
    omega
  simp only [step, grown, Forest.close, Forest.count, hinside, List.take_left, List.drop_left,
    List.reverse_reverse, List.reverse_cons, List.reverse_nil, List.nil_append,
    List.singleton_append]

mutual

/-- The steps of a tree add the tree, where the text goes on with the text of the tree. -/
theorem foldlM_steps (tree : Tree) (builder : Builder) (rest : Text)
    (hopened : builder.opened.isEmpty = false ∨ (tree.isNode = true ∧ builder.forest.latest = []))
    (hrest : builder.rest = tree.fullText ++ rest) :
    tree.steps.foldlM step builder = .ok (builder.grown [tree] rest) :=
  match tree with
  | .token tok => by
    rcases hopened with hopened | ⟨hnode, _⟩
    · rw [Tree.fullText_token] at hrest
      rw [Tree.steps, List.foldlM_cons, step_token hopened hrest]
      rfl
    · exact absurd hnode (by simp only [Tree.isNode, Bool.false_eq_true, not_false_eq_true])
  | .node kind children => by
    have hstart : builder.step (.start kind) =
        .ok { builder with opened := (builder.forest.count, kind) :: builder.opened } := by
      -- A second root is never started: something is open, or nothing was finished.
      have hroot : (builder.opened.isEmpty && !builder.forest.latest.isEmpty) = false := by
        rcases hopened with hopened | ⟨_, hlatest⟩
        · rw [hopened, Bool.false_and]
        · rw [hlatest, List.isEmpty_nil, Bool.not_true, Bool.and_false]
      rw [step, hroot]
      rfl
    rw [Tree.fullText_node] at hrest
    have hchildren := foldlM_stepsOf children
      { builder with opened := (builder.forest.count, kind) :: builder.opened } rest rfl hrest
    rw [Tree.steps, List.foldlM_cons, hstart]
    simp only [bind, Except.bind, List.foldlM_append, hchildren, List.foldlM_cons, step_finish,
      List.foldlM_nil, pure, Except.pure]

/-- The steps of a row add the row, where the text goes on with the text of the row. -/
theorem foldlM_stepsOf (row : List Tree) (builder : Builder) (rest : Text)
    (hopened : builder.opened.isEmpty = false)
    (hrest : builder.rest = Tree.fullTextOf row ++ rest) :
    (Tree.stepsOf row).foldlM step builder = .ok (builder.grown row rest) :=
  match row with
  | [] => by
    rw [Tree.fullTextOf, Tree.tokensOf, List.flatMap_nil, List.nil_append] at hrest
    rw [← hrest]
    rfl
  | tree :: more => by
    rw [Tree.fullTextOf_cons, List.append_assoc] at hrest
    -- The first tree uses up its own text and leaves that of the others.
    have htree := foldlM_steps tree builder (Tree.fullTextOf more ++ rest) (.inl hopened) hrest
    have hmore := foldlM_stepsOf more (builder.grown [tree] (Tree.fullTextOf more ++ rest)) rest
      hopened rfl
    rw [Tree.stepsOf, List.foldlM_append, htree]
    simp only [bind, Except.bind, hmore, grown_grown, List.singleton_append]

end

/-- The steps of a node build it over a text that begins with its own. -/
theorem run_steps_append (kind : Kind) (children : List Tree) (rest : Text) :
    run ((Tree.node kind children).fullText ++ rest) (Tree.node kind children).steps =
      .ok ⟨(Tree.node kind children).fullText ++ rest, .root kind children⟩ := by
  have hsteps := foldlM_steps (.node kind children)
    (begin ((Tree.node kind children).fullText ++ rest)) rest (.inr ⟨rfl, rfl⟩) rfl
  rw [run, hsteps]
  rfl

/-- A tree is built over the text that was given, whatever the steps are. -/
theorem text_run {text : Text} {steps : List Step} {tree : SourceTree}
    (h : run text steps = .ok tree) : tree.text = text := by
  rcases bind_eq_ok h with ⟨builder, _, hfinish⟩
  rcases bind_eq_ok hfinish with ⟨root, _, htree⟩
  cases htree
  rfl

end Builder

namespace Log

/-- A log that tells of one node builds this node over its text, and no step of it makes no
    sense. -/
theorem build_node {log : Log} {before behind : List Event} {kind : Kind} {children : List Tree}
    (hbroken : log.broken = false) (hnode : Event.WritesNode before kind behind children)
    (hevents : log.events = before ++ .start kind none :: behind) :
    log.build (Tree.node kind children).fullText =
      .ok ⟨(Tree.node kind children).fullText, .root kind children⟩ := by
  have hnil : Event.replay [] = .ok [] := by rw [Event.replay]
  have hreplay := Event.replay_writesNode hnode hnil
  rw [List.append_nil, List.append_nil, ← hevents] at hreplay
  have hrun := Builder.run_steps_append kind children []
  rw [List.append_nil] at hrun
  rw [build, hbroken, hreplay]
  exact hrun

end Log

end PhpAssist

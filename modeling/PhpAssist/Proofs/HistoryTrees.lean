import PhpAssist.Proofs.BracketOrder

/-!
# The trees of histories

A tidy history builds a tree, in whatever order its nodes are completed: the steps of its log are
balanced, and a `Builder` makes a tree of them over the text that was read. `Covers` says what is in
that tree. Every node that was started is in it once, every token that was read is in it in order,
and a node that was started around another one has that one as its first child. Nodes that were
started around one another are therefore a way down along first children, however many they are.

It does not say where nodes end. `Follows` does: what is in a node is what was read and started
between its start and its completion, and apart from the starts that moved to the front, the tree
is in the order of the operations. Brackets are nested, so this is so only if nodes are completed in
the order opposite to the one in which they start: `LastFirst` is not merely enough for it. The
order in which they were started is another one, and it is not enough: in `overtaking` a node is
started around one whose surroundings have been completed.

## Main definitions

* `History.PutAround`: A node was started around another one.
* `History.plain`: The operations that stay at their places.
* `Sketch.Covers`: What is in the tree of a history.
* `Sketch.Follows`: Where its nodes end.

## Theorems

* `Tidy.covers`: The tree of a history covers it.
* `Tidy.follows`, `Tidy.lastFirst_of_follows`: When it follows it.
* `History.build_follows_iff_lastFirst`: What building the log of a history gives.
* `History.build_follows_of_stacked`: What it gives where the order of time is kept.
* `History.build_overtaking`: Where that order is kept and the tree does not follow.
-/

namespace PhpAssist

namespace Log

/-- The token that an operation reads. -/
def Operation.token? : Operation → Option Token
  | .token tok => some tok
  | _ => none

namespace History

variable {history : History}

/-- The node of a marker was started around the one of another marker. -/
def PutAround (history : History) (outer inner : Marker) : Prop :=
  ∃ completed, history.PrecedesAt outer.position completed ∧ completed.mark = inner

/-- The tokens that were read, with their times. -/
def reads (history : History) : List (Nat × Token) := history.timed Operation.token?

/-- The text that was read. -/
def text (history : History) : Text := history.reads.flatMap fun read => read.2.fullText

/-- The bracket of an operation that stays at its place: all but the start of a node around
    another one. -/
def plainAt (history : History) (time : Nat) : Option Bracket :=
  match history[time]? with
  | some .start => some (.opens ⟨time⟩)
  | some (.token tok) => some (.reads time tok)
  | some (.complete marker _) => some (.closes marker)
  | _ => none

/-- The operations that stay at their places, in the order of time. -/
def plain (history : History) : List Bracket :=
  (List.range history.length).filterMap history.plainAt

theorem read_brackets : Bracket.read history.brackets = history.reads := by
  rw [Bracket.read, brackets, List.filterMap_flatMap, reads, timed,
    List.filterMap_eq_flatMap_toList]
  refine List.flatMap_congr fun time _ => ?_
  rw [bracketsAt]
  rcases history[time]? with _ | _ | tok | ⟨marker, kind⟩ | completed
  · rfl
  · dsimp only
    refine List.filterMap_eq_nil_iff.mpr fun bracket hmem => ?_
    rcases List.mem_map.mp hmem with ⟨_, _, rfl⟩
    rfl
  · rfl
  · rfl
  · rfl

/-- Moving starts to the front leaves the rest in the order of time. -/
theorem plain_sublist : history.plain.Sublist history.brackets := by
  have hstep (time : Nat) : (history.plainAt time).toList.Sublist (history.bracketsAt time) := by
    rw [plainAt, bracketsAt]
    rcases history[time]? with _ | _ | tok | ⟨marker, kind⟩ | completed
    · exact List.Sublist.refl _
    · refine List.singleton_sublist.mpr (List.mem_map_of_mem ?_)
      exact List.mem_reverse.mpr List.mem_cons_self
    · exact List.Sublist.refl _
    · exact List.Sublist.refl _
    · exact List.Sublist.refl _
  rw [plain, brackets, List.filterMap_eq_flatMap_toList]
  induction List.range history.length with
  | nil => exact List.Sublist.refl _
  | cons time times ih => exact (hstep time).append ih

theorem pair_sublist_plain {time later : Nat} {outer inner : Marker} {kind kind' : Kind}
    (hat : history.CompletesAt time outer kind) (hlater : history.CompletesAt later inner kind')
    (hlt : time < later) : [Bracket.closes outer, .closes inner].Sublist history.plain := by
  have hlength := (List.getElem?_eq_some_iff.mp hlater).1
  have hcut := range'_cut (Nat.zero_le later) (Nat.le_of_lt hlength)
  rw [Nat.sub_zero, ← List.range_eq_range'] at hcut
  have htimes : [time, later].Sublist (List.range history.length) := by
    rw [hcut]
    exact (List.singleton_sublist.mpr (List.mem_range'_1.mpr ⟨Nat.zero_le _, by omega⟩)).append
      (List.singleton_sublist.mpr (List.mem_range'_1.mpr ⟨Nat.le_refl _, by omega⟩))
  have hpair := htimes.filterMap history.plainAt
  rw [List.filterMap_cons, List.filterMap_cons, plainAt, plainAt, hat, hlater] at hpair
  exact hpair

end History

namespace Sketch

/-- What is in the tree of a history: every node that was started, once, with the first one around
    the rest, and every token in the order in which they were read. A node that was started around
    another one has that one as its first child, and so on along the first children. -/
structure Covers (sketch : Sketch) (history : History) : Prop where
  root : ∃ children, sketch = .node ⟨0⟩ children
  nodup : (Bracket.opened sketch.brackets).Nodup
  markers : ∀ marker, marker ∈ Bracket.opened sketch.brackets ↔ history.Starts marker
  reads : Bracket.read sketch.brackets = history.reads
  first : ∀ outer inner, history.PutAround outer inner →
    ∃ firsts more, .node outer (.node inner firsts :: more) ∈ sketch.nodes
  chain : ∀ marker chain, history.Starts marker → (marker :: chain).IsChain history.PutAround →
    ∃ children, .node marker children ∈ sketch.nodes ∧
      (marker :: chain) <+: (Sketch.node marker children).spine

/-- Where the nodes of the tree of a history end: a node has in it the tokens that were read and the
    nodes that start between its start and its completion. What stays at its place is in the order
    of the operations. -/
structure Follows (sketch : Sketch) (history : History) : Prop where
  inside : ∀ time marker kind, history.CompletesAt time marker kind →
    ∃ children, .node marker children ∈ sketch.nodes ∧
      leavesOf children =
        history.reads.filter (fun read => history.startOf marker < read.1 ∧ read.1 < time) ∧
      ∀ inner, inner ∈ markersOf children ↔ history.Starts inner ∧
        history.StartsBefore marker inner ∧ history.startOf inner < time
  order : history.plain.Sublist sketch.brackets

end Sketch

namespace History

namespace Tidy

variable {history : History} (h : history.Tidy) {children : List Sketch}
  (hblank : (Sketch.node ⟨0⟩ children).brackets.map Bracket.blank =
    history.brackets.map Bracket.blank)
include h

/-! ## What is in the tree -/

/-- A node that was started around another one is opened right in front of it. -/
theorem exists_split {outer inner : Marker} (hat : history.PutAround outer inner) :
    ∃ front behind, history.brackets = front ++ Bracket.opens outer :: .opens inner :: behind := by
  rcases hat with ⟨completed, hat, rfl⟩
  rcases h.starts_of_precedes hat with ⟨hstarts, _⟩
  have hop := h.start_at_startOf hstarts
  have hplain := startOf_start ⟨history.startOf completed.mark⟩ hop
  have hlt := (List.getElem?_eq_some_iff.mp hop).1
  -- Among the nodes that start there the one around comes next, and they are opened in reverse.
  have hchain : ∃ front, (⟨history.startOf completed.mark⟩ ::
      history.around ⟨history.startOf completed.mark⟩ : List Marker) =
        front ++ completed.mark :: outer :: history.around outer := by
    rw [← h.around_eq_cons hat]
    rcases Nat.eq_or_lt_of_le (history.startOf_le completed.mark) with heq | hless
    · rw [heq]
      exact ⟨[], rfl⟩
    · rcases around_eq_append (mem_around.mpr ⟨hplain.symm, hless, position_lt hstarts⟩) with
        ⟨front, hfront, _⟩
      exact ⟨_ :: front, congrArg _ hfront⟩
  rcases hchain with ⟨front, hfront⟩
  rcases List.mem_iff_append.mp (List.mem_range.mpr hlt) with ⟨earlier, later, hrange⟩
  refine ⟨earlier.flatMap history.bracketsAt ++ (history.around outer).reverse.map .opens,
    front.reverse.map .opens ++ later.flatMap history.bracketsAt, ?_⟩
  rw [brackets, hrange, List.flatMap_append, List.flatMap_cons, bracketsAt, hop]
  dsimp only
  rw [hfront]
  simp only [List.reverse_append, List.reverse_cons, List.map_append, List.map_cons,
    List.append_assoc, List.cons_append, List.nil_append]

include hblank

/-- A node that was started around another one has that one as its first child. -/
theorem children_eq {outer inner : Marker} {below : List Sketch}
    (hat : history.PutAround outer inner)
    (hmem : .node outer below ∈ (Sketch.node ⟨0⟩ children).nodes) :
    ∃ firsts more, below = .node inner firsts :: more := by
  rcases h.exists_split hat with ⟨front, behind, hsplit⟩
  rcases Sketch.brackets_of_mem_nodes hmem with ⟨before, after, hnode⟩
  have hnodup := nodup_of_pairwise h.pairwise_brackets
  rw [hsplit, List.nodup_middle, List.nodup_cons, List.mem_append, not_or] at hnodup
  have hblank_notMem {row : List Bracket} (hnot : Bracket.opens outer ∉ row) :
      Bracket.opens outer ∉ row.map Bracket.blank := by
    rwa [← Bracket.mem_opened, Bracket.opened_map_blank, Bracket.mem_opened]
  rw [hnode, hsplit, List.map_append, List.map_append, List.map_cons, List.map_cons] at hblank
  -- The node is opened once, so what comes next is the same on both sides.
  have hnext := ((List.append_cons_inj_of_notMem (hblank_notMem hnodup.1.1)
    (hblank_notMem hnodup.1.2)).mp hblank.symm).2.2
  rcases below with _ | ⟨_ | ⟨first, firsts⟩, more⟩
  · exact absurd (List.cons.inj hnext).1.symm Bracket.noConfusion
  · exact absurd (List.cons.inj hnext).1.symm Bracket.noConfusion
  · injection (List.cons.inj hnext).1 with heq
    exact ⟨firsts, more, by rw [heq]⟩

/-- Nodes that were started around one another stand on the way down along first children. -/
theorem spine_of_chain {marker : Marker} {chain : List Marker} {below : List Sketch}
    (hchain : (marker :: chain).IsChain history.PutAround)
    (hmem : .node marker below ∈ (Sketch.node ⟨0⟩ children).nodes) :
    (marker :: chain) <+: (Sketch.node marker below).spine := by
  induction chain generalizing marker below with
  | nil =>
    rw [Sketch.spine]
    exact List.cons_prefix_cons.mpr ⟨rfl, List.nil_prefix⟩
  | cons inner chain ih =>
    rcases List.isChain_cons_cons.mp hchain with ⟨hat, hrest⟩
    rcases h.children_eq hblank hat hmem with ⟨firsts, more, rfl⟩
    have hspine := ih hrest (Sketch.mem_nodes_of_first hmem)
    rw [Sketch.spine, Sketch.spineOf]
    exact List.cons_prefix_cons.mpr ⟨rfl, hspine⟩

theorem mem_opened_iff (marker : Marker) :
    marker ∈ Bracket.opened (Sketch.node ⟨0⟩ children).brackets ↔ history.Starts marker := by
  rw [← Bracket.opened_map_blank, hblank, Bracket.opened_map_blank, Bracket.mem_opened,
    h.opens_mem_brackets]

theorem exists_node {marker : Marker} (hstarts : history.Starts marker) :
    ∃ below, .node marker below ∈ (Sketch.node ⟨0⟩ children).nodes :=
  Sketch.exists_of_mem_opened (Bracket.mem_opened.mp ((h.mem_opened_iff hblank marker).mpr hstarts))

theorem covers : (Sketch.node ⟨0⟩ children).Covers history where
  root := ⟨children, rfl⟩
  nodup := by
    rw [← Bracket.opened_map_blank, hblank, Bracket.opened_map_blank]
    exact Bracket.nodup_opened (nodup_of_pairwise h.pairwise_brackets)
  markers := h.mem_opened_iff hblank
  reads := by
    rw [← Bracket.read_map_blank, hblank, Bracket.read_map_blank, read_brackets]
  -- What a node was put around is its first child.
  first outer inner hat := by
    have hstarts : history.Starts outer := by
      rcases hat with ⟨completed, hat, _⟩
      exact ⟨_, hat, rfl⟩
    rcases h.exists_node hblank hstarts with ⟨below, hmem⟩
    rcases h.children_eq hblank hat hmem with ⟨firsts, more, rfl⟩
    exact ⟨firsts, more, hmem⟩
  chain marker chain hstarts hchain := by
    rcases h.exists_node hblank hstarts with ⟨below, hmem⟩
    exact ⟨below, hmem, h.spine_of_chain hblank hchain hmem⟩

/-! ## Where nodes end -/

omit hblank

theorem leavesOf_eq {sketch : Sketch} (hbrackets : sketch.brackets = history.brackets) {time : Nat}
    {marker : Marker} {kind : Kind} {below : List Sketch}
    (hat : history.CompletesAt time marker kind) (hmem : .node marker below ∈ sketch.nodes) :
    Sketch.leavesOf below =
      history.reads.filter fun read => history.startOf marker < read.1 ∧ read.1 < time := by
  rcases Sketch.brackets_of_mem_nodes hmem with ⟨front, behind, hnode⟩
  have hpairwise := h.pairwise_brackets
  rw [← hbrackets, hnode] at hpairwise
  have hinside := filter_eq_inside hpairwise
  rw [← hnode, hbrackets] at hinside
  rw [Sketch.leavesOf, ← hinside, ← read_brackets, Bracket.read, Bracket.read,
    List.filterMap_filter, List.filter_filterMap]
  -- Only tokens are leaves, and none is read where a node starts or is completed.
  refine List.filterMap_congr fun bracket hbracket => ?_
  rcases bracket with _ | ⟨read, tok⟩ | _
  · split
    · rfl
    · rfl
  · have hop := token_of_reads hbracket
    have hstart := h.startOf_ne (h.started _ _ _ hat).1 hop Operation.noConfusion
    have hend : read ≠ time := by
      rintro rfl
      exact Operation.noConfusion (unique_at hop hat)
    have hiff : (history.Before (.opens marker) (.reads read tok) ∧
        history.Before (.reads read tok) (.closes marker)) ↔
        (history.startOf marker < read ∧ read < time) := by
      refine and_congr ?_ (h.before_closes_iff (.reads read tok) hat hend)
      exact ⟨fun hless => hless.resolve_right fun heq => hstart heq.1, .inl⟩
    simp only [Bracket.read?, Option.filter, hiff]
  · split
    · rfl
    · rfl

theorem mem_markersOf_iff {sketch : Sketch} (hbrackets : sketch.brackets = history.brackets)
    {time : Nat} {marker inner : Marker} {kind : Kind} {below : List Sketch}
    (hat : history.CompletesAt time marker kind) (hmem : .node marker below ∈ sketch.nodes) :
    inner ∈ Sketch.markersOf below ↔ history.Starts inner ∧
      history.StartsBefore marker inner ∧ history.startOf inner < time := by
  rcases Sketch.brackets_of_mem_nodes hmem with ⟨front, behind, hnode⟩
  have hpairwise := h.pairwise_brackets
  rw [← hbrackets, hnode] at hpairwise
  have hinside := mem_inside_iff hpairwise (.opens inner)
  rw [← hnode, hbrackets, h.opens_mem_brackets] at hinside
  rw [Sketch.markersOf, Bracket.mem_opened, hinside]
  refine and_congr_right fun hstarts => and_congr_right fun _ => ?_
  exact h.before_closes_iff (.opens inner) hat (h.startOf_ne hstarts hat Operation.noConfusion)

/-- A tree with the brackets of a history follows it. -/
theorem follows {sketch : Sketch} (hbrackets : sketch.brackets = history.brackets) :
    sketch.Follows history where
  inside time marker kind hat := by
    have hopens := h.opens_mem_brackets.mpr (h.started _ _ _ hat).1
    rw [← hbrackets] at hopens
    rcases Sketch.exists_of_mem_opened hopens with ⟨below, hmem⟩
    exact ⟨below, hmem, h.leavesOf_eq hbrackets hat hmem, fun inner =>
      h.mem_markersOf_iff hbrackets hat hmem⟩
  order := by
    rw [hbrackets]
    exact plain_sublist

/-- In a tree that follows a history, what starts last ends first. -/
theorem lastFirst_of_follows {sketch : Sketch} (hcovers : sketch.Covers history)
    (hfollows : sketch.Follows history) : history.LastFirst := by
  intro outer inner time later kind kind' hat hlater hstart hless
  rcases hfollows.inside time outer kind hat with ⟨below, hnode, _, hinside⟩
  have hmem := (hinside inner).mpr ⟨(h.started _ _ _ hlater).1, hstart, hless⟩
  have hclosed := (Sketch.closedOf_perm_openedOf below).mem_iff.mpr hmem
  rcases Sketch.brackets_of_mem_nodes hnode with ⟨front, behind, hsplit⟩
  have hnodup := (Sketch.closed_perm_opened sketch).nodup_iff.mpr hcovers.nodup
  by_contra hnot
  have hne : time ≠ later := by
    rintro rfl
    injection unique_at hat hlater with heq
    rw [heq] at hstart
    exact irrefl_of history.Before (.opens inner) hstart
  -- The two are completed in this order, but in the tree they are closed the other way round.
  have hforth : [outer, inner].Sublist (Bracket.closed sketch.brackets) :=
    ((pair_sublist_plain hat hlater (by omega)).trans hfollows.order).filterMap Bracket.closed?
  have hback : [inner, outer].Sublist (Bracket.closed sketch.brackets) := by
    have hpair : [Bracket.closes inner, Bracket.closes outer].Sublist sketch.brackets := by
      rw [hsplit]
      refine List.sublist_append_of_sublist_right (List.Sublist.cons _ ?_)
      exact (List.singleton_sublist.mpr (Bracket.mem_closed.mp hclosed)).append
        (List.singleton_sublist.mpr List.mem_cons_self)
    exact hpair.filterMap Bracket.closed?
  exact not_sublist_swap hnodup hforth hback

/-- A history has a tree, and the tree follows it if what starts last is completed first. -/
theorem exists_sketch : ∃ children, (Sketch.node ⟨0⟩ children).brackets.map Bracket.blank =
    history.brackets.map Bracket.blank ∧
      ((Sketch.node ⟨0⟩ children).Follows history ↔ history.LastFirst) := by
  -- Without the order the tree is that of the steps, which do not say what they finish.
  by_cases horder : history.LastFirst
  · rcases h.exists_row horder with ⟨children, hbrackets⟩
    exact ⟨children, congrArg _ hbrackets, fun _ => horder, fun _ => h.follows hbrackets⟩
  · rcases h.exists_blank with ⟨children, hblank⟩
    exact ⟨children, hblank, fun hfollows => h.lastFirst_of_follows (h.covers hblank) hfollows,
      fun hlast => absurd hlast horder⟩

theorem replay_log {sketch : Sketch}
    (hblank : sketch.brackets.map Bracket.blank = history.brackets.map Bracket.blank) :
    Event.replay history.log.events = .ok (sketch.tree history.kindOf).steps := by
  have hevents : history.log.events = history.events := by
    rw [h.log_eq, Log.events, extend, empty, List.append_nil, List.reverse_reverse]
  rw [hevents, h.replay_events, Sketch.steps_tree, ← Bracket.map_step_blank, ← hblank,
    Bracket.map_step_blank]

end Tidy

/-- Building the log of a tidy history gives a tree. The steps that its log is replayed to are those
    of the tree, so they are balanced, and the `Builder` takes them over any text that begins with
    what was read. The tree covers the history, and it follows it just if nodes are completed in
    the order opposite to the one in which they start. -/
theorem build_follows_iff_lastFirst {history : History} (h : history.Tidy) (rest : Text) :
    ∃ sketch : Sketch,
      Event.replay history.log.events = .ok (sketch.tree history.kindOf).steps ∧
      (∃ root, history.log.build (history.text ++ rest) = .ok ⟨history.text ++ rest, root⟩ ∧
        root.tree = sketch.tree history.kindOf) ∧
      sketch.Covers history ∧ (sketch.Follows history ↔ history.LastFirst) := by
  rcases h.exists_sketch with ⟨children, hblank, hiff⟩
  have hcovers := h.covers hblank
  have hreplay := h.replay_log hblank
  refine ⟨.node ⟨0⟩ children, hreplay, ?_, hcovers, hiff⟩
  -- The tokens of the tree are those of the history, so the text is cut as it was read.
  have htext : ((Sketch.node ⟨0⟩ children).tree history.kindOf).fullText = history.text := by
    rw [Tree.fullText, Sketch.tokens_tree, text, ← hcovers.reads, List.flatMap_map]
    rfl
  -- A tidy history never misuses the log.
  have hbroken : history.log.broken = false := by
    rw [h.log_eq]
    rfl
  refine ⟨.root (history.kindOf ⟨0⟩) (Sketch.treesOf history.kindOf children), ?_, rfl⟩
  rw [build, hbroken, hreplay, ← htext]
  exact Builder.run_steps_append _ _ rest

/-- Nodes that are completed in the order opposite to the one in which they were started give a
    tree, and it follows them just if a node is started around another one only while what the
    other one is inside of is open. It does where a node is started around another one before
    anything else is completed. -/
theorem build_follows_of_stacked {history : History} (h : history.Tidy)
    (hstacked : history.Stacked) (rest : Text) :
    ∃ sketch : Sketch,
      Event.replay history.log.events = .ok (sketch.tree history.kindOf).steps ∧
      (∃ root, history.log.build (history.text ++ rest) = .ok ⟨history.text ++ rest, root⟩ ∧
        root.tree = sketch.tree history.kindOf) ∧
      sketch.Covers history ∧ (sketch.Follows history ↔ history.StillOpen) ∧
      (history.Prompt → sketch.Follows history) := by
  rcases build_follows_iff_lastFirst h rest with ⟨sketch, hreplay, hbuild, hcovers, horder⟩
  have hiff := horder.trans (h.lastFirst_iff_stillOpen hstacked)
  exact ⟨sketch, hreplay, hbuild, hcovers, hiff, fun hprompt => hiff.mpr hprompt.stillOpen⟩

/-- Two operators in a row. The node of the first one is started when its operand and the operator
    itself have been read, and the node of the second one around it. -/
def operators : History :=
  let tok (kind : Kind) (text : String) : Operation := .token ⟨[], kind, text.toList, []⟩
  [.start, .start, tok .variableName "$a", .complete ⟨1⟩ .variable, tok .operator "+",
    .precede ⟨⟨1⟩, .variable⟩, .start, tok .variableName "$b", .complete ⟨6⟩ .variable,
    .complete ⟨5⟩ .binaryExpr, .precede ⟨⟨5⟩, .binaryExpr⟩, tok .dot ".", .start,
    tok .variableName "$c", .complete ⟨12⟩ .variable, .complete ⟨10⟩ .concatExpr,
    .complete ⟨0⟩ .sourceFile]

theorem build_operators :
    operators.Tidy ∧ operators.Stacked ∧ operators.Prompt ∧ ∃ sketch : Sketch,
      Event.replay operators.log.events = .ok (sketch.tree operators.kindOf).steps ∧
      (∃ root, operators.log.build (operators.text ++ []) = .ok ⟨operators.text ++ [], root⟩ ∧
        root.tree = sketch.tree operators.kindOf) ∧
      sketch.Covers operators ∧ sketch.Follows operators := by
  have htidy : operators.Tidy := by decide
  have hstacked : operators.Stacked := by decide
  have hprompt : operators.Prompt := by decide
  rcases build_follows_of_stacked htidy hstacked [] with
    ⟨sketch, hreplay, hbuild, hcovers, _, hfollows⟩
  exact ⟨htidy, hstacked, hprompt, sketch, hreplay, hbuild, hcovers, hfollows hprompt⟩

/-- Where the order of time alone is kept, the node around the first token ends too early: it was
    completed behind the second one, and that one is outside of it. No tree follows such a
    history. -/
theorem build_overtaking :
    overtaking.Tidy ∧ overtaking.Stacked ∧
      Event.replay overtaking.log.events =
        .ok [.start .sourceFile, .start .parenExpr, .start .binaryExpr, .start .variable,
          .token [] .variableName 2 [], .finish, .finish, .token [] .variableName 2 [], .finish,
          .finish] ∧
      (overtaking.log.build "$a$a".toList).toOption.map (fun tree => tree.root.tree) =
        some (.node .sourceFile [
          .node .parenExpr [
            .node .binaryExpr [.node .variable [.token ⟨[], .variableName, "$a".toList, []⟩]],
            .token ⟨[], .variableName, "$a".toList, []⟩]]) ∧
      ∀ sketch : Sketch, sketch.Covers overtaking → ¬ sketch.Follows overtaking := by
  rcases not_lastFirst_overtaking with ⟨htidy, hstacked, horder⟩
  -- The link leads from the variable over the end of the parentheses.
  have hevents : overtaking.log.events =
      [.start .sourceFile none, .start .parenExpr none, .start .variable (some 3),
        .token ⟨[], .variableName, "$a".toList, []⟩, .finish, .finish, .start .binaryExpr none,
        .token ⟨[], .variableName, "$a".toList, []⟩, .finish, .finish] := rfl
  have hreplay : Event.replay overtaking.log.events =
      .ok [.start .sourceFile, .start .parenExpr, .start .binaryExpr, .start .variable,
        .token [] .variableName 2 [], .finish, .finish, .token [] .variableName 2 [], .finish,
        .finish] := by
    rw [hevents]
    simp only [Event.replay, Event.replay_unmarked, Event.followFrom, Event.follow, reduceCtorEq,
      if_false, bind, Except.bind, pure, Except.pure]
    rfl
  refine ⟨htidy, hstacked, hreplay, ?_, fun sketch hcovers hfollows => ?_⟩
  · have hbroken : overtaking.log.broken = false := rfl
    rw [build, hbroken, hreplay]
    rfl
  · exact horder (htidy.lastFirst_of_follows hcovers hfollows)

end History

end Log

end PhpAssist

import PhpAssist.Grammar.State
import PhpAssist.Proofs.Replay

/-!
# What the rules of the grammar read

Every rule takes a parse from one state to a later one. Whatever the tokens ahead are, and whether
or not they fit, what lies between the two states is a row of trees: the tokens that are no longer
ahead are the leaves of the row, none lost, none twice and all in order, and what was added to the
log tells of the row. `Reads` says this of two states, and `Makes` says it where the rule answers
with a node that it completed, which may still become the left operand of another one.

Both compose. A state is read on from where another rule left it, a node is closed around what was
read since it started, and a node that was completed is taken up by the one around it.

## Main definitions

* `Log.Tells`: Something was added to a log that tells of a row of trees.
* `Grammar.Advances`: Tokens were read, and nothing that was said is taken back.
* `Grammar.Reads`: A row of trees was read.
* `Grammar.Makes`: A node was completed.
* `Grammar.Outcome`: What a rule that may answer with a node has done.

## Theorems

* `Grammar.Reads.close`, `Grammar.Makes.around`: Closing a node, plain or around another one.
-/

namespace PhpAssist

namespace Log

/-- A log with more events behind it. -/
def extend (log : Log) (events : List Event) : Log :=
  { log with latest := events.reverse ++ log.latest }

theorem extend_extend (log : Log) (events more : List Event) :
    (log.extend events).extend more = log.extend (events ++ more) := by
  simp only [extend, List.reverse_append, List.append_assoc]

theorem push_eq_extend (log : Log) (event : Event) : log.push event = log.extend [event] := rfl

theorem mark_extend (log : Log) (events : List Event) :
    (log.extend events).mark.position = log.mark.position + events.length := by
  simp only [mark, extend, List.length_append, List.length_reverse, Nat.add_comm]

/-- Changing a start finds it behind the events that were noted before it. -/
theorem amend_extend (log : Log) {before behind : List Event} {kind : Kind}
    {forward : Option Nat} {marker : Marker} (change : Kind → Option Nat → Event)
    (hmarker : marker.position = log.mark.position + before.length) :
    (log.extend (before ++ .start kind forward :: behind)).amend marker change =
      log.extend (before ++ change kind forward :: behind) := by
  have hlatest (event : Event) : (before ++ event :: behind).reverse ++ log.latest =
      behind.reverse ++ event :: (before.reverse ++ log.latest) := by
    simp only [List.reverse_append, List.reverse_cons, List.append_assoc, List.cons_append,
      List.nil_append]
  have hlength : ((before ++ .start kind forward :: behind).reverse ++ log.latest).length =
      behind.length + 1 + marker.position := by
    rw [hmarker, mark]
    simp only [List.length_append, List.length_reverse, List.length_cons]
    omega
  have hindex : ((before ++ .start kind forward :: behind).reverse ++ log.latest).length -
      (marker.position + 1) = behind.reverse.length := by
    rw [hlength, List.length_reverse]
    omega
  simp only [amend, extend, hindex]
  rw [hlatest, List.getElem?_append_right (Nat.le_refl _), Nat.sub_self, List.getElem?_cons_zero]
  have hposition : marker.position <
      (behind.reverse ++ Event.start kind forward :: (before.reverse ++ log.latest)).length := by
    rw [← hlatest, hlength]
    omega
  simp only [hposition, if_true, hlatest, List.set_append_right _ _ (Nat.le_refl _), Nat.sub_self,
    List.set_cons_zero]

/-- Something was added to a log that tells of a row of trees. -/
def Tells (log after : Log) (row : List Tree) : Prop :=
  ∃ events, Event.Writes events row ∧ after = log.extend events

theorem Tells.refl (log : Log) : log.Tells log [] := ⟨[], .nil, rfl⟩

theorem Tells.trans {a b c : Log} {row more : List Tree} (h : a.Tells b row)
    (hmore : b.Tells c more) : a.Tells c (row ++ more) := by
  rcases h with ⟨events, hevents, hlog⟩
  rcases hmore with ⟨events', hevents', hlog'⟩
  refine ⟨events ++ events', hevents.append hevents', ?_⟩
  rw [hlog', hlog, extend_extend]

theorem Tells.token (log : Log) (tok : Token) : log.Tells (log.push (.token tok)) [.token tok] :=
  ⟨[.token tok], .token tok .nil, rfl⟩

/-- A node is completed with what was added since it started. -/
theorem Tells.complete {log after : Log} {row : List Tree} {kind : Kind}
    (hkind : kind ≠ .tombstone) (h : log.start.Tells after row) :
    ∃ behind, Event.WritesNode [] kind behind row ∧
      after.complete log.mark kind = log.extend (.start kind none :: behind) := by
  rcases h with ⟨events, hevents, hlog⟩
  have hstart : log.start = log.extend [.start .tombstone none] := rfl
  have hamend : (log.extend (.start .tombstone none :: events)).amend log.mark
      (fun _ forward => .start kind forward) = log.extend (.start kind none :: events) := by
    have hposition : log.mark.position = log.mark.position + ([] : List Event).length := rfl
    exact amend_extend log _ hposition
  refine ⟨events ++ [Event.finish], .plain events hkind hevents, ?_⟩
  rw [hlog, hstart, extend_extend, Log.complete, List.singleton_append, hamend, push_eq_extend,
    extend_extend, List.cons_append]

end Log

namespace Grammar

/-- Tokens were read between two states. Diagnostics are only added, and a parse that stalled
    stays so. -/
structure Advances (state after : State) (tokens : List Token) : Prop where
  ahead : state.ahead = tokens ++ after.ahead
  last : after.last = state.last
  diagnostics : state.diagnostics <:+ after.diagnostics
  stalled : state.stalled = true → after.stalled = true

/-- A row of trees was read between two states. -/
structure Reads (state after : State) (row : List Tree) : Prop extends
    Advances state after (Tree.tokensOf row) where
  log : state.log.Tells after.log row

/-- A node was completed between two states, and nothing was read besides. -/
structure Makes (state : State) (completed : Completed) (after : State) (children : List Tree) :
    Prop extends Advances state after (Tree.tokensOf children) where
  log : ∃ before behind, Event.WritesNode before completed.kind behind children ∧
    after.log = state.log.extend (before ++ .start completed.kind none :: behind) ∧
    completed.mark.position = state.mark.position + before.length

/-- What a rule that may answer with a node has done: a node was completed, or it has not answered
    and some row was read. -/
def Outcome (state : State) : Option Completed × State → Prop
  | (some completed, after) => ∃ children, Makes state completed after children
  | (none, after) => ∃ row, Reads state after row

namespace Advances

theorem refl (state : State) : Advances state state [] :=
  ⟨rfl, rfl, List.suffix_refl _, id⟩

theorem trans {a b c : State} {tokens more : List Token} (h : Advances a b tokens)
    (hmore : Advances b c more) : Advances a c (tokens ++ more) where
  ahead := by rw [h.ahead, hmore.ahead, List.append_assoc]
  last := hmore.last.trans h.last
  diagnostics := h.diagnostics.trans hmore.diagnostics
  stalled := fun hstalled => hmore.stalled (h.stalled hstalled)

end Advances

namespace Reads

variable {a b c : State} {row more : List Tree}

theorem refl (state : State) : Reads state state [] :=
  ⟨.refl state, .refl state.log⟩

theorem trans (h : Reads a b row) (hmore : Reads b c more) : Reads a c (row ++ more) := by
  refine ⟨?_, h.log.trans hmore.log⟩
  rw [Tree.tokensOf_append]
  exact h.toAdvances.trans hmore.toAdvances

/-- The token ahead was read. -/
theorem bump {tok : Token} {rest : List Token} (hahead : a.ahead = tok :: rest) :
    Reads a a.bump [.token tok] := by
  have hbump : a.bump = { a with
      ahead := rest
      offset := a.offset + tok.size
      lastEnd := (tok.spanAt a.offset).stop
      log := a.log.push (.token tok) } := by
    rw [State.bump, hahead]
  rw [hbump]
  refine ⟨⟨?_, rfl, List.suffix_refl _, id⟩, Log.Tells.token a.log tok⟩
  rw [hahead, Tree.tokensOf_singleton, Tree.tokens, List.singleton_append]

/-- Only something was said. -/
theorem said {diagnostics : List Diagnostic} (h : a.diagnostics <:+ diagnostics) :
    Reads a { a with diagnostics } [] :=
  ⟨⟨rfl, rfl, h, id⟩, .refl a.log⟩

theorem report (message : String) : Reads a (a.report message) [] :=
  said (List.suffix_cons _ _)

theorem stall : Reads a a.stall [] :=
  ⟨⟨rfl, rfl, List.suffix_refl _, fun _ => rfl⟩, .refl a.log⟩

end Reads

section Nodes

variable {a b c : State} {completed : Completed} {children row : List Tree} {kind : Kind}

/-- A node is closed around what was read since it started. -/
theorem Reads.close (hkind : kind ≠ .tombstone) (h : Reads a.start b row) :
    Makes a ⟨a.mark, kind⟩ (b.close a.mark kind) row := by
  rcases Log.Tells.complete hkind h.log with ⟨behind, hnode, hlog⟩
  exact ⟨⟨h.ahead, h.last, h.diagnostics, h.stalled⟩, [], behind, hnode, hlog, rfl⟩

/-- A node that was completed is one tree of a row. -/
theorem Makes.reads (h : Makes a completed b children) :
    Reads a b [.node completed.kind children] := by
  rcases h.log with ⟨before, behind, hnode, hlog, _⟩
  refine ⟨?_, before ++ Event.start completed.kind none :: (behind ++ []), .node hnode .nil, ?_⟩
  · rw [Tree.tokensOf_singleton, Tree.tokens]
    exact h.toAdvances
  · rw [hlog, List.append_nil]

/-- A node is closed around one that was completed and what was read behind it. -/
theorem Makes.around (hkind : kind ≠ .tombstone) (h : Makes a completed b children)
    (hrow : Reads (b.precede completed) c row) :
    Makes a ⟨b.mark, kind⟩ (c.close b.mark kind) (.node completed.kind children :: row) := by
  rcases h.log with ⟨before, behind, hnode, hlog, hmarker⟩
  rcases hrow.log with ⟨events, hevents, hlog'⟩
  have hmark : b.log.mark.position =
      a.log.mark.position + (before ++ .start completed.kind none :: behind).length := by
    rw [hlog, Log.mark_extend]
  -- The link leads from the start of the operand over what is behind it.
  have hbetween : b.log.latest.length - (completed.mark.position + 1) = behind.length := by
    have hlatest : b.log.latest.length = _ := hmark
    rw [hlatest, hmarker, State.mark, List.length_append, List.length_cons]
    omega
  have hprecede : (b.precede completed).log =
      a.log.extend (before ++ Event.start completed.kind (some behind.length) ::
        (behind ++ [Event.start .tombstone none])) := by
    rw [State.precede, Log.precede, hbetween, Log.start, Log.push_eq_extend, hlog,
      Log.extend_extend, List.append_assoc, List.cons_append, Event.unmarked,
      Log.amend_extend _ _ hmarker]
  refine ⟨?_, before ++ Event.start completed.kind (some behind.length) :: behind,
    events ++ [Event.finish], .around events hkind hnode hevents, ?_, ?_⟩
  · rw [Tree.tokensOf, Tree.tokens]
    exact h.toAdvances.trans ⟨hrow.ahead, hrow.last, hrow.diagnostics, hrow.stalled⟩
  · have hsplit : before ++ Event.start completed.kind (some behind.length) ::
        (behind ++ [Event.start .tombstone none]) ++ events =
        (before ++ Event.start completed.kind (some behind.length) :: behind) ++
          .start .tombstone none :: events := by
      simp only [List.append_assoc, List.cons_append, List.nil_append]
    have hposition : b.mark.position = a.log.mark.position +
        (before ++ Event.start completed.kind (some behind.length) :: behind).length := by
      rw [State.mark, hmark]
      simp only [List.length_append, List.length_cons]
    have hclose : (c.close b.mark kind).log = c.log.complete b.mark kind := rfl
    rw [hclose, hlog', hprecede, Log.extend_extend, hsplit, Log.complete,
      Log.amend_extend _ _ hposition, Log.push_eq_extend, Log.extend_extend]
    simp only [List.append_assoc, List.cons_append]
  · rw [State.mark, hmark, State.mark]
    simp only [List.length_append, List.length_cons]

end Nodes

end Grammar

end PhpAssist

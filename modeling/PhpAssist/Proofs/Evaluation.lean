import Mathlib.Logic.Relation
import PhpAssist.Proofs.Calls

/-!
# Evaluating calls

A call is evaluated by following its script and evaluating every call in it. An evaluation has no
allowance to run out of: it is there or it is not. It comes with a journal of all the calls that it
made, and the length of the journal is what the call costs. An allowance no shorter than the journal
is enough for the rules to answer with what the evaluation comes to.

What holds of every script is said by contracts. A contract names the calls that may be made and
what is to be kept in mind behind each answer, and a script meets it call by call.

A list of parameters that goes on at an operator other than `&` asks itself and nothing else, with
the same tokens ahead, and so it has no evaluation.

## Main definitions

* `Grammar.Runs`: A script comes to an answer, with a journal.
* `Grammar.Asks`: A call that a script makes, the answers before it being known.
* `Grammar.Call.Makes`, `Grammar.Call.Reaches`: A call makes another one, at once or on the way.
* `Grammar.Contract`, `Grammar.Script.Meets`: Contracts, and scripts that meet them.
* `Grammar.Call.IsEndless`: A call that has no end.

## Theorems

* `Grammar.Runs.unique`: A script comes to one answer, with one journal.
* `Grammar.Asks.runs`: The calls of a script that comes to an answer come to one sooner.
* `Grammar.exists_runs`: A script whose calls all have evaluations has one itself.
* `Grammar.Runs.answered`: An allowance as long as the journal is enough.
* `Grammar.Script.Meets.bind`: Contracts are met part by part.
* `Grammar.Call.IsEndless.script_eq`: An endless call makes another one and does nothing else.
* `Grammar.Call.IsEndless.not_runs`: An endless call has no evaluation.
-/

namespace PhpAssist

namespace Grammar

/-- A script comes to an answer. The journal lists the calls made on the way, each in front of the
    calls that its own answer took. -/
inductive Runs : Script Answer → Answer → List Call → Prop
  | done (said : Answer) : Runs (.done said) said []
  | call {asked : Call} {behind : Answer → Script Answer} {reply said : Answer}
      {journal more : List Call} (h : Runs asked.script reply journal)
      (hmore : Runs (behind reply) said more) :
      Runs (.call asked behind) said (asked :: (journal ++ more))

/-- A call that a script makes, when the calls before it are answered. -/
inductive Asks : Script Answer → Call → Prop
  | first {asked : Call} {behind : Answer → Script Answer} : Asks (.call asked behind) asked
  | later {asked next : Call} {behind : Answer → Script Answer} {reply : Answer}
      {journal : List Call} (h : Runs asked.script reply journal)
      (hmore : Asks (behind reply) next) : Asks (.call asked behind) next

namespace Call

/-- A call makes another one while it is answered. -/
def Makes (asked next : Call) : Prop := Asks asked.script next

/-- A call is made on the way to an answer, or is the one to be answered. -/
def Reaches : Call → Call → Prop := Relation.ReflTransGen Makes

end Call

/-- A script comes to one answer, with one journal. -/
theorem Runs.unique {script : Script Answer} {said other : Answer} {journal entries : List Call}
    (h : Runs script said journal) (hother : Runs script other entries) :
    said = other ∧ journal = entries := by
  induction h generalizing other entries with
  | done => cases hother; exact ⟨rfl, rfl⟩
  | call _ _ ih ihmore =>
    cases hother with
    | call hreply hmore =>
      rcases ih hreply with ⟨rfl, rfl⟩
      rcases ihmore hmore with ⟨rfl, rfl⟩
      exact ⟨rfl, rfl⟩

/-- A call that was made has an evaluation, shorter than the one it was made in. -/
theorem Asks.runs {script : Script Answer} {next : Call} {said : Answer} {journal : List Call}
    (h : Asks script next) (hruns : Runs script said journal) :
    ∃ reply entries, Runs next.script reply entries ∧ entries.length < journal.length := by
  induction h generalizing journal with
  -- The journal of the answer is a part of the whole one, which has the call besides.
  | first =>
    cases hruns with
    | call hreply _ =>
      refine ⟨_, _, hreply, ?_⟩
      rw [List.length_cons, List.length_append]
      omega
  | later hreply _ ih =>
    cases hruns with
    | call hfirst hmore =>
      rcases hreply.unique hfirst with ⟨rfl, rfl⟩
      rcases ih hmore with ⟨reply, entries, hentries, hlength⟩
      refine ⟨reply, entries, hentries, ?_⟩
      rw [List.length_cons, List.length_append]
      omega

/-- A script whose calls all have evaluations has one itself. -/
theorem exists_runs {script : Script Answer}
    (h : ∀ next, Asks script next → ∃ reply journal, Runs next.script reply journal) :
    ∃ said journal, Runs script said journal := by
  induction script with
  | done said => exact ⟨said, [], .done said⟩
  | call asked behind ih =>
    rcases h asked .first with ⟨reply, journal, hreply⟩
    rcases ih reply fun next hnext => h next (.later hreply hnext) with ⟨said, more, hmore⟩
    exact ⟨said, _, .call hreply hmore⟩

/-- An allowance as long as the journal is enough. -/
theorem Runs.answered {script : Script Answer} {said : Answer} {journal : List Call}
    (h : Runs script said journal) {each allowance : Nat} (heach : journal.length ≤ each)
    (hallowance : journal.length ≤ allowance) :
    script.answered (answers each allowance) = said := by
  induction h generalizing each allowance with
  | done => rfl
  | @call asked behind reply said journal more _ _ ih ihmore =>
    rw [List.length_cons, List.length_append] at heach hallowance
    have hreply : answers each allowance asked = reply := by
      rcases each with _ | each
      · omega
      rcases allowance with _ | allowance
      · omega
      rw [answers]
      -- A rule that repeats uses up the allowance for repeating, any other one its own.
      by_cases hrepeats : asked.rule.repeats = true
      · rw [if_pos hrepeats, answer_succ, if_pos hrepeats]
        exact ih (by omega) (by omega)
      · rw [if_neg hrepeats, answer_succ, if_neg hrepeats]
        exact ih (by omega) (by omega)
    rw [Script.answered, hreply]
    exact ihmore (by omega) (by omega)

/-! ## Contracts -/

/-- What is kept in mind along a script: which calls it may make, and what is to be kept in mind
    behind an answer. -/
structure Contract (σ : Type) where
  may : σ → Call → Prop
  leads : σ → Call → Answer → σ → Prop

namespace Script

variable {σ α β : Type} {contract : Contract σ} {goal : σ → α → Prop} {aim : σ → β → Prop}

/-- A script makes only calls that it may make, and comes to its goal, whatever it is answered
    within the contract. -/
def Meets (contract : Contract σ) (goal : σ → α → Prop) : σ → Script α → Prop
  | known, .done value => goal known value
  | known, .call asked behind =>
    contract.may known asked ∧
      ∀ reply known', contract.leads known asked reply known' →
        (behind reply).Meets contract goal known'

theorem Meets.bind {script : Script α} {more : α → Script β} {known : σ}
    (h : script.Meets contract goal known)
    (hmore : ∀ known value, goal known value → (more value).Meets contract aim known) :
    (script >>= more).Meets contract aim known := by
  induction script generalizing known with
  | done value => exact hmore known value h
  | call asked behind ih =>
    exact ⟨h.1, fun reply known' hreply => ih reply (h.2 reply known' hreply)⟩

theorem Meets.mono {aim : σ → α → Prop} {script : Script α} {known : σ}
    (h : script.Meets contract goal known)
    (haim : ∀ known value, goal known value → aim known value) :
    script.Meets contract aim known := by
  induction script generalizing known with
  | done value => exact haim known value h
  | call asked behind ih =>
    exact ⟨h.1, fun reply known' hreply => ih reply (h.2 reply known' hreply)⟩

theorem Meets.onlyIf {present : Bool} {script : Script State} {otherwise : State} {known : σ}
    {goal : σ → State → Prop} (h : present = true → script.Meets contract goal known)
    (hnot : present = false → goal known otherwise) :
    (script.onlyIf present otherwise).Meets contract goal known := by
  cases present with
  | true => exact h rfl
  | false => exact hnot rfl

end Script

/-! ## Calls without an end -/

namespace State

/-- Nothing was read between two states. -/
structure Stays (before after : State) : Prop where
  ahead : after.ahead = before.ahead
  last : after.last = before.last

variable {before after : State}

theorem Stays.isAt (h : before.Stays after) (kind : Kind) : after.isAt kind = before.isAt kind := by
  rw [State.isAt, State.isAt, State.kind, State.kind, h.ahead]

theorem Stays.isAtText (h : before.Stays after) (kind : Kind) (word : String) :
    after.isAtText kind word = before.isAtText kind word := by
  rw [State.isAtText, State.isAtText, h.isAt, State.next, State.next, h.ahead, h.last]

/-- Where a token is missing, nothing is read. -/
theorem Stays.expect (h : before.Stays after) {kind : Kind} (hnot : before.isAt kind = false) :
    before.Stays (after.expect kind) := by
  rw [State.expect, if_neg (Bool.eq_false_iff.mp ((h.isAt kind).trans hnot))]
  exact ⟨h.ahead, h.last⟩

end State

namespace Call

/-- A list of parameters that goes on at an operator other than `&`. -/
def IsEndless (asked : Call) : Prop :=
  asked.rule = .items .parameter ∧ asked.state.isAt .operator = true ∧
    asked.state.isAtText .operator "&" = false

/-- Such a list asks itself and nothing else, and nothing is read before it does. -/
theorem IsEndless.script_eq {asked : Call} (h : asked.IsEndless) :
    ∃ next : Call, next.IsEndless ∧ next.state.ahead = asked.state.ahead ∧
      asked.script = .call next fun reply => .done (none, reply.2) := by
  rcases asked with ⟨rule, state⟩
  rcases h with ⟨rfl, hat, hamp⟩
  have hkind : state.kind = .operator := beq_iff_eq.mp hat
  have hnot : ∀ {kind : Kind}, kind ≠ .operator → state.isAt kind = false := fun hne => by
    rw [State.isAt, hkind]
    exact beq_eq_false_iff_ne.mpr hne.symm
  have hstart : state.Stays state.start := ⟨rfl, rfl⟩
  have hnamed : state.Stays (state.start.expect .variableName) := hstart.expect (hnot (by decide))
  have hitem : state.Stays ((state.start.expect .variableName).close state.mark .param) :=
    ⟨hnamed.ahead, hnamed.last⟩
  have hnext := hitem.expect (@hnot .comma (by decide))
  -- The parameter takes no token at all: neither a type, nor a mark, nor a name is there.
  have hparam : Script.item .parameter state =
      .done (true, (state.start.expect .variableName).close state.mark .param) := by
    have hname : state.start.isAt .name = false := hnot (by decide)
    have hquestion : state.start.isAt .question = false := hnot (by decide)
    have hequals : (state.start.expect .variableName).isAt .equals = false :=
      (hnamed.isAt _).trans (hnot (by decide))
    have hfirst : state.isAtOneOf canStartParam = true := by
      rw [State.isAtOneOf, hkind]
      decide
    have hamp : state.start.isAtText .operator "&" = false := (hstart.isAtText _ _).trans hamp
    have hpassed : Script.paramName state.start = .done (state.start.expect .variableName) := by
      simp only [Script.paramName, hname, hquestion, Bool.or_self, Script.onlyIf]
      simp [bind, Script.andThen, pure, hamp]
    simp only [Script.item, if_pos hfirst, hpassed, bind, Script.andThen, hequals, Script.onlyIf]
    rfl
  refine ⟨⟨.items .parameter, _⟩, ⟨rfl, (hnext.isAt _).trans hat, (hnext.isAtText _ _).trans hamp⟩,
    hnext.ahead, ?_⟩
  -- So the list is neither closed nor separated, and asks for the next parameter.
  have hclosing : state.isAt ListSort.parameter.brackets.closing = false := hnot (by decide)
  have hseparator : state.isAt ListSort.parameter.brackets.separator = false := hnot (by decide)
  have hend : state.isAt .endOfFile = false := hnot (by decide)
  have hcomma : ((state.start.expect .variableName).close state.mark .param).isAt
      ListSort.parameter.brackets.separator = false := (hitem.isAt _).trans hseparator
  have hfirst : ((state.start.expect .variableName).close state.mark .param).isAtOneOf
      ListSort.parameter.brackets.first = true := by
    rw [State.isAtOneOf, beq_iff_eq.mp ((hitem.isAt _).trans hat)]
    decide
  simp only [Call.script, Call.script.quiet, Script.items, hclosing, hseparator, hend, hparam,
    hcomma, hfirst, bind, Script.andThen, Bool.or_self, Bool.false_eq_true, if_false, if_true]
  rfl

/-- An endless call has no evaluation. -/
theorem IsEndless.not_runs {asked : Call} (h : asked.IsEndless) {said : Answer}
    {journal : List Call} : ¬ Runs asked.script said journal := by
  intro hruns
  generalize hscript : asked.script = script at hruns
  induction hruns generalizing asked with
  | done =>
    rcases h.script_eq with ⟨next, -, -, heq⟩
    cases heq.symm.trans hscript
  | call _ _ ih =>
    rcases h.script_eq with ⟨next, hnext, -, heq⟩
    cases heq.symm.trans hscript
    exact ih hnext rfl

end Call

end Grammar

end PhpAssist

import PhpAssist.Proofs.Pace
import PhpAssist.Proofs.Stalls

/-!
# Progress

Every call that is not endless makes only calls below it. So a rule that comes up again on the way,
be it a loop that goes round or a rule that is asked for from within itself, has fewer tokens ahead
than it had before, and unless there is an endless call the parse has an end. What the parse costs
is counted in its journal: sixteen calls for a token at most.

The only endless calls are lists of parameters at an operator other than `&`. A parse that comes to
one has no evaluation, and stalls whatever allowance it is given. The others come to an end within
the allowance that they are given, so a parse that stalled is one that has no end.

## Main definitions

* `Grammar.Rule.Alike`: The same rule, asked with whatever it is asked with.
* `Grammar.Call.LeadsTo`: A chain of calls, none of them endless but perhaps the last.
* `Parse.Entry`: Reading a file, and reading a fragment.

## Theorems

* `Grammar.Call.LeadsTo.below`: Calls on the way are below.
* `Grammar.Runs.spent`: What an evaluation costs.
* `Grammar.Call.exists_runs`: A call that leads to no endless one has an evaluation.
* `Parse.ends_or_repeats`: A parse ends soon, or comes to a list of parameters that has no end.
-/

namespace PhpAssist

namespace Grammar

/-! ## Calls on the way -/

/-- Two rules that are the same one, whatever power or operand they are asked with. -/
def Rule.Alike (a b : Rule) : Prop := a.ctorIdx = b.ctorIdx

theorem Rule.Alike.rank_eq {a b : Rule} (h : a.Alike b) : a.rank = b.rank := by
  have hrank : ∀ rule : Rule, rule.rank =
      [4, 1, 3, 2, 1, 1, 1, 5, 1, 1, 7, 6, 5, 7, 1, 1].getD rule.ctorIdx 0 := fun rule => by
    cases rule <;> rfl
  rw [hrank, hrank, h]

theorem Rule.Alike.isList_eq {a b : Rule} (h : a.Alike b) : a.isList = b.isList := by
  have hlist : ∀ rule : Rule, rule.isList = [7, 10].contains rule.ctorIdx := fun rule => by
    cases rule <;> rfl
  rw [hlist, hlist, h]

theorem Rule.rank_le (rule : Rule) : rule.rank ≤ 7 := by
  unfold rank
  split <;> decide

theorem Call.rank_le (asked : Call) : asked.rank ≤ 7 := by
  unfold rank
  split
  · exact Nat.zero_le 7
  · exact asked.rule.rank_le

namespace Call

/-- A chain of calls. Only the last of them may be endless. -/
def LeadsTo : Call → Call → Prop :=
  Relation.TransGen fun asked next => ¬ asked.IsEndless ∧ asked.Makes next

end Call

/-- What an evaluation costs, by the contract that its script meets. -/
theorem Runs.spent {script : Script Answer} {said : Answer} {journal : List Call} {asked : Call}
    {goal : Nat → Answer → Prop} {count : Nat} (h : Runs script said journal)
    (hmeets : script.Meets (pace asked) goal count) : goal (count + journal.length) said := by
  induction h generalizing asked goal count with
  | done => exact hmeets
  | @call inner behind reply said journal more hreply _ ih ihmore =>
    -- The reply was paid for by its own journal, and what comes behind by the rest.
    have hspent : Spent inner (1 + journal.length) reply :=
      ih (Call.paces_script fun hendless => hendless.not_runs hreply)
    have hmore := ihmore (hmeets.2 reply _ ⟨_, hspent, rfl⟩)
    rw [List.length_cons, List.length_append]
    convert hmore using 1
    omega

/-- A script that meets the contract of a call asks what is below the call. -/
theorem Asks.below_of_meets {script : Script Answer} {asked next : Call}
    {goal : Nat → Answer → Prop} {count : Nat} (h : Asks script next)
    (hmeets : script.Meets (pace asked) goal count) :
    next.Below asked := by
  induction h generalizing count with
  | first => exact hmeets.1
  | later hreply _ ih =>
    have hspent := hreply.spent (Call.paces_script fun hendless => hendless.not_runs hreply)
    exact ih (hmeets.2 _ _ ⟨_, hspent, rfl⟩)

namespace Call

variable {asked next : Call}

theorem Makes.below (h : asked.Makes next) (hends : ¬ asked.IsEndless) : next.Below asked :=
  Asks.below_of_meets h (paces_script hends)

theorem Below.trans {last : Call} (h : last.Below next) (hnext : next.Below asked) :
    last.Below asked := by
  rcases h with h | ⟨hlength, hrank⟩ <;> rcases hnext with hnext | ⟨hlength', hrank'⟩
  · exact .inl (h.trans hnext)
  · exact .inl (hlength' ▸ h)
  · exact .inl (hlength ▸ hnext)
  · exact .inr ⟨hlength.trans hlength', hrank.trans hrank'⟩

theorem LeadsTo.below (h : asked.LeadsTo next) : next.Below asked := by
  induction h with
  | single h => exact h.2.below h.1
  | tail _ h ih => exact (h.2.below h.1).trans ih

/-- A rule that comes up again has fewer tokens ahead. -/
theorem LeadsTo.length_lt (h : asked.LeadsTo next) (halike : asked.rule.Alike next.rule) :
    next.state.ahead.length < asked.state.ahead.length := by
  rcases h.below with hlt | ⟨hlength, hrank⟩
  · exact hlt
  · have hempty : next.state.ahead.isEmpty = asked.state.ahead.isEmpty := by
      rw [Bool.eq_iff_iff, List.isEmpty_iff_length_eq_zero, List.isEmpty_iff_length_eq_zero,
        hlength]
    rw [rank, rank, halike.rank_eq, halike.isList_eq, hempty] at hrank
    exact absurd hrank (lt_irrefl _)

/-- Calls that are below one another, as numbers. -/
def height (asked : Call) : Nat := 8 * asked.state.ahead.length + asked.rank

theorem Below.height_lt (h : next.Below asked) : next.height < asked.height := by
  have hnext := next.rank_le
  unfold height
  rcases h with h | ⟨hlength, hrank⟩ <;> omega

/-- A call that leads to no endless one has an evaluation. -/
theorem exists_runs (h : ∀ other, asked.Reaches other → ¬ other.IsEndless) :
    ∃ said journal, Runs asked.script said journal := by
  induction hheight : asked.height using Nat.strongRecOn generalizing asked with
  | ind height ih =>
    subst hheight
    refine Grammar.exists_runs fun next hnext => ?_
    have hbelow := Makes.below hnext (h asked .refl)
    exact ih _ hbelow.height_lt (fun other hother => h other (.head hnext hother)) rfl

/-- A call that has an evaluation leads to no endless one. -/
theorem Reaches.runs {said : Answer} {journal : List Call} (h : asked.Reaches next)
    (hruns : Runs asked.script said journal) :
    ∃ said journal, Runs next.script said journal := by
  induction h with
  | refl => exact ⟨said, journal, hruns⟩
  | tail _ hmakes ih =>
    rcases ih with ⟨_, _, hruns⟩
    rcases Asks.runs hmakes hruns with ⟨reply, entries, hreply, -⟩
    exact ⟨reply, entries, hreply⟩

/-- An endless call makes one call, which is endless as well and has the same tokens ahead. -/
theorem IsEndless.makes (h : asked.IsEndless) :
    ∃ next : Call, next.IsEndless ∧ next.state.ahead = asked.state.ahead ∧
      ∀ other, asked.Makes other ↔ other = next := by
  rcases h.script_eq with ⟨next, hnext, hahead, hscript⟩
  refine ⟨next, hnext, hahead, fun other => ?_⟩
  unfold Makes
  rw [hscript]
  constructor
  · intro hasks
    cases hasks with
    | first => rfl
    -- The first call has no reply, so there is no second one.
    | later hreply _ => exact absurd hreply hnext.not_runs
  · rintro rfl
    exact .first

end Call

end Grammar

namespace Parse

open Grammar

/-- The two ways in which a text is read. -/
inductive Entry where
  | file
  | fragment

namespace Entry

variable (entry : Entry) (text : Text)

/-- The rule that reads the text. -/
def rule : Entry → Nat → State → State
  | .file => sourceFile
  | .fragment => Grammar.fragment

/-- The state in which the statements of the text begin. -/
def begins (lexing : Lexing) : Entry → State
  | .file => (State.begin lexing).start.skip .openTag
  | .fragment => (State.begin lexing).start

/-- The first call of a parse: the statements of the text. -/
def first : Call := ⟨.stmtList .endOfFile, entry.begins (Lexing.of text)⟩

/-- What is left to do behind the statements. -/
def finish (after : State) : State :=
  after.readEnd.close (State.begin (Lexing.of text)).mark .sourceFile

theorem rule_eq (allowance : Nat) : entry.rule allowance (State.begin (Lexing.of text)) =
    finish text (answer allowance allowance (entry.first text)).2 := by
  cases entry <;> rfl

theorem finish_stalled (after : State) : (finish text after).stalled = after.stalled := by
  unfold finish State.readEnd
  cases after.ahead <;> rfl

theorem length_first : (entry.first text).state.ahead.length ≤ (Lexing.of text).tokens.length := by
  cases entry with
  | file => exact State.skip_length_le _ _
  | fragment => exact le_rfl

theorem first_stalled : (entry.first text).state.stalled = false := by
  cases entry with
  | file => exact State.skip_stalled _ _
  | fragment => rfl

end Entry

/-- A parse whose calls are not endless ends, within the calls that its tokens pay for. -/
theorem exists_runs (entry : Entry) (text : Text)
    (h : ∀ asked, (entry.first text).Reaches asked → ¬ asked.IsEndless) :
    ∃ said journal, Runs (entry.first text).script said journal ∧
      journal.length ≤ 16 * (Lexing.of text).tokens.length ∧
      ∀ allowance, journal.length < allowance →
        entry.rule allowance (State.begin (Lexing.of text)) = Entry.finish text said.2 ∧
        (entry.rule allowance (State.begin (Lexing.of text))).stalled = false := by
  rcases Call.exists_runs h with ⟨said, journal, hruns⟩
  have hspent := hruns.spent (Call.paces_script (h _ .refl))
  have hlength := entry.length_first text
  have hcost := hspent.cost
  have hslack : (entry.first text).rule.slack = 1 := rfl
  refine ⟨said, journal, hruns, by omega, fun allowance hallowance => ?_⟩
  -- More allowance than the journal is long is enough for every call in it.
  have hanswer : answer allowance allowance (entry.first text) = said := by
    rcases allowance with _ | allowance
    · exact absurd hallowance (Nat.not_lt_zero _)
    · rw [answer_succ]
      exact hruns.answered (Nat.le_of_lt_succ hallowance) (Nat.le_of_lt_succ hallowance)
  have hstalled := hruns.stalled (entry.first text).keeps_script
  rw [entry.rule_eq, hanswer, Entry.finish_stalled, hstalled]
  exact ⟨rfl, entry.first_stalled text⟩

/-- A parse that comes to an endless call stalls, whatever it is given. -/
theorem stalled_of_endless {entry : Entry} {text : Text} {asked : Call}
    (h : (entry.first text).Reaches asked) (hendless : asked.IsEndless) (allowance : Nat) :
    (entry.rule allowance (State.begin (Lexing.of text))).stalled = true := by
  rw [entry.rule_eq, Entry.finish_stalled]
  refine Bool.of_not_eq_false fun hsaid => ?_
  rcases (kept_answer allowance allowance (entry.first text)).runs hsaid with ⟨journal, hruns⟩
  rcases h.runs hruns with ⟨_, _, hreply⟩
  exact hendless.not_runs hreply

/-- Progress. A rule that comes up again behind calls that are not endless has fewer tokens ahead
    than before. An endless call, which is a list of parameters at an operator other than `&`, makes
    one call, endless again and with the same tokens ahead. A parse that comes to no such call ends,
    and apart from the first makes no more than sixteen calls for a token; one that comes to such a
    call goes on for ever. -/
theorem ends_or_repeats (entry : Entry) (text : Text) :
    (∀ asked next : Call, asked.LeadsTo next → asked.rule.Alike next.rule →
      next.state.ahead.length < asked.state.ahead.length) ∧
    (∀ asked : Call, asked.IsEndless → ∃ next : Call, next.IsEndless ∧
      next.state.ahead = asked.state.ahead ∧ ∀ other, asked.Makes other ↔ other = next) ∧
    ((∀ asked, (entry.first text).Reaches asked → ¬ asked.IsEndless) ∧
        (withRule entry.rule text).finished = true ∧
        (∃ said journal, Runs (entry.first text).script said journal ∧
          journal.length ≤ 16 * (Lexing.of text).tokens.length ∧
          ∀ allowance, journal.length < allowance →
            entry.rule allowance (State.begin (Lexing.of text)) = Entry.finish text said.2) ∨
      (∃ asked, (entry.first text).Reaches asked ∧ asked.IsEndless) ∧
        (withRule entry.rule text).finished = false ∧
        (∀ said journal, ¬ Runs (entry.first text).script said journal) ∧
        ∀ allowance, (entry.rule allowance (State.begin (Lexing.of text))).stalled = true) := by
  refine ⟨fun asked next h => h.length_lt, fun asked h => h.makes, ?_⟩
  -- Either an endless call is reached, and nothing ends, or none is, and everything does.
  by_cases hendless : ∃ asked, (entry.first text).Reaches asked ∧ asked.IsEndless
  · rcases hendless with ⟨asked, hreaches, hendless⟩
    refine .inr ⟨⟨asked, hreaches, hendless⟩, ?_, fun said journal hruns => ?_,
      stalled_of_endless hreaches hendless⟩
    · rw [withRule, run, stalled_of_endless hreaches hendless]
      rfl
    · rcases hreaches.runs hruns with ⟨_, _, hreply⟩
      exact hendless.not_runs hreply
  · have hends : ∀ asked, (entry.first text).Reaches asked → ¬ asked.IsEndless :=
      fun asked hreaches hasked => hendless ⟨asked, hreaches, hasked⟩
    rcases exists_runs entry text hends with ⟨said, journal, hruns, hlength, hrule⟩
    have hallowance : journal.length < allowance (Lexing.of text).tokens.length := by
      unfold allowance
      omega
    refine .inl ⟨hends, ?_, said, journal, hruns, hlength, fun bound hbound => ?_⟩
    · rw [withRule, run, (hrule _ hallowance).2]
      rfl
    · exact (hrule bound hbound).1

/-- There are such texts: the parameters of this function begin at a `+`. -/
theorem repeats_at_plus :
    ∃ asked, (Entry.fragment.first "function f(+".toList).Reaches asked ∧ asked.IsEndless := by
  have hstalled : (withRule Entry.fragment.rule "function f(+".toList).finished = false := by
    decide +kernel
  rcases (ends_or_repeats .fragment "function f(+".toList).2.2 with ⟨_, hfinished, _⟩ | ⟨h, _⟩
  · exact absurd (hfinished.symm.trans hstalled) (by decide)
  · exact h

end Parse

end PhpAssist

import Mathlib.Data.Nat.Basic
import Mathlib.Order.Basic
import PhpAssist.Proofs.Evaluation

/-!
# The pace of the grammar

Every token that is read pays for sixteen calls. A call may be made before a token is read, so each
rule is given some calls that nothing pays for: a repetition one, for looking that it has come to
its end, an expression three, down to the operand that is missing. Where a rule is sure to read a
token it may spend almost everything that the token brings.

That a rule is sure to read a token depends on what is ahead. An expression reads one wherever an
expression may begin, since what begins none there is put into an error node; a statement reads one
unless the text has ended. This is what the repetitions rest on: they ask for an item only where one
may begin, and go on only after it was read. The one item that may begin where it reads nothing is a
parameter at an operator other than `&`.

A call that is made before anything is read asks for a smaller part of the grammar. The rules have
ranks for this, and a call is below the one that makes it when it has fewer tokens ahead, or as many
and a lower rank.

## Main definitions

* `Grammar.Call.Below`: The order in which calls are made.
* `Grammar.Rule.slack`, `Grammar.Rule.credit`: What a rule may spend.
* `Grammar.Call.Advances`, `Grammar.Spent`: The cost of a call.
* `Grammar.pace`, `Grammar.Script.Costs`: The contract of the rules, and parts that keep to it.

## Theorems

* `Grammar.Script.Costs.bind`: The cost of two parts, one after the other.
* `Grammar.Call.paces_script`: Every call that is not endless keeps to the pace.
-/

namespace PhpAssist

namespace Grammar

/-! ## Tokens ahead -/

namespace State

variable (state : State)

@[simp] theorem start_ahead : state.start.ahead = state.ahead := rfl

@[simp] theorem precede_ahead (completed : Completed) :
    (state.precede completed).ahead = state.ahead := rfl

@[simp] theorem close_ahead (start : Marker) (kind : Kind) :
    (state.close start kind).ahead = state.ahead := rfl

@[simp] theorem complete_ahead (start : Marker) (kind : Kind) :
    (state.complete start kind).2.ahead = state.ahead := rfl

@[simp] theorem report_ahead (message : String) : (state.report message).ahead = state.ahead := rfl

@[simp] theorem bump_ahead : state.bump.ahead = state.ahead.tail := by
  rw [bump]
  split <;> simp [*]

@[simp] theorem reject_ahead (message : String) :
    (state.reject message).ahead = state.ahead.tail :=
  bump_ahead (state.start.report message)

@[simp] theorem leaf_ahead (kind : Kind) : (state.leaf kind).2.ahead = state.ahead.tail :=
  bump_ahead state.start

theorem expect_length_le (kind : Kind) :
    (state.expect kind).ahead.length ≤ state.ahead.length := by
  unfold expect
  split
  · simp
  · exact le_rfl

theorem skip_length_le (kind : Kind) : (state.skip kind).ahead.length ≤ state.ahead.length := by
  unfold skip
  split
  · simp
  · exact le_rfl

theorem className_length_le : (className state).ahead.length ≤ state.ahead.length := by
  unfold className
  split <;> simp

theorem rejectUnless_length_le (message : String) (awaited : KindSet) :
    (state.rejectUnless message awaited).ahead.length ≤ state.ahead.length := by
  unfold rejectUnless
  split <;> simp

theorem functionName_length_le : (functionName state).ahead.length ≤ state.ahead.length := by
  dsimp only [functionName]
  split <;> split
  · simp only [bump_ahead, List.length_tail]
    omega
  · exact (rejectUnless_length_le state.bump _ _).trans (by simp)
  · simp
  · exact rejectUnless_length_le state _ _

theorem missingExpr_length_le : (missingExpr state).ahead.length ≤ state.ahead.length := by
  unfold missingExpr
  split <;> simp

variable {state}

/-- Where a kind other than the end is ahead, a token is. -/
theorem length_pos_of_kind (h : state.kind ≠ .endOfFile) : 0 < state.ahead.length := by
  rcases hahead : state.ahead with _ | ⟨token, more⟩
  · exact absurd (by rw [kind, hahead]) h
  · exact Nat.succ_pos _

theorem length_pos_of_isAt {kind : Kind} (h : state.isAt kind = true) (hkind : kind ≠ .endOfFile) :
    0 < state.ahead.length :=
  length_pos_of_kind (beq_iff_eq.mp h ▸ hkind)

theorem length_pos_of_isAtOneOf {kinds : KindSet} (h : state.isAtOneOf kinds = true)
    (hkinds : kinds.contains .endOfFile = false) : 0 < state.ahead.length :=
  length_pos_of_kind fun hkind => by
    rw [isAtOneOf, hkind, hkinds] at h
    exact Bool.false_ne_true h

/-- A token that is there is read. -/
theorem expect_ahead_of_isAt {kind : Kind} (h : state.isAt kind = true) :
    (state.expect kind).ahead = state.ahead.tail := by
  rw [expect, if_pos h, bump_ahead]

/-- A type that begins with a name or a `?` reads a token. -/
theorem expect_skip_length_le (h : (state.isAt .name || state.isAt .question) = true) :
    ((state.skip .question).expect .name).ahead.length ≤ state.ahead.length - 1 := by
  rw [skip]
  split
  · exact (expect_length_le _ _).trans (by simp)
  · rename_i hquestion
    rw [Bool.or_eq_true_iff, or_iff_left hquestion] at h
    rw [expect_ahead_of_isAt h, List.length_tail]

end State

/-! ## The order of calls -/

/-- The rank of a rule among the calls that are made before a token is read. -/
def Rule.rank : Rule → Nat
  | .stmtList _ | .body => 7
  | .stmt => 6
  | .block | .items _ => 5
  | .expr _ => 4
  | .unary => 3
  | .postfixes _ => 2
  | _ => 1

/-- Whether a rule is one that brackets stand around. -/
def Rule.isList : Rule → Bool
  | .items _ | .stmtList _ => true
  | _ => false

namespace Call

/-- The rank of a call. Lists begin behind a bracket, and at the end of the text they do nothing. -/
def rank (asked : Call) : Nat :=
  if asked.rule.isList && asked.state.ahead.isEmpty then 0 else asked.rule.rank

/-- A call comes below another one when it has fewer tokens ahead, or as many and a lower rank. -/
def Below (next asked : Call) : Prop :=
  next.state.ahead.length < asked.state.ahead.length ∨
    next.state.ahead.length = asked.state.ahead.length ∧ next.rank < asked.rank

end Call

/-! ## The cost of a call -/

/-- The calls of a rule that no token pays for. -/
def Rule.slack : Rule → Nat
  | .expr _ => 3
  | .unary | .argList | .block => 2
  | _ => 1

theorem Rule.slack_pos (rule : Rule) : 0 < rule.slack := by
  unfold slack
  split <;> decide

/-- What a rule that is sure to read a token may spend of what the token pays for. -/
def Rule.credit : Rule → Nat
  | .primary => 4
  | .unary => 6
  | .expr _ => 8
  | .stmt => 15
  | _ => 14

theorem Rule.credit_le (rule : Rule) : rule.credit ≤ 15 := by
  unfold credit
  split <;> decide

/-- A call that is sure to read a token, by what is ahead or by what it says. -/
def Call.Advances (asked : Call) (said : Answer) : Prop :=
  match asked.rule with
  | .expr _ | .unary | .primary => said.1.isSome = true ∨ asked.state.isAtOneOf canStartExpr = true
  | .argList | .block | .stmt => asked.state.ahead ≠ []
  | _ => False

/-- What is known of a call that took a number of calls, itself included. -/
structure Spent (asked : Call) (count : Nat) (said : Answer) : Prop where
  reads : said.2.ahead.length ≤ asked.state.ahead.length
  cost : count + 16 * said.2.ahead.length ≤ 16 * asked.state.ahead.length + asked.rule.slack
  advances : asked.Advances said →
    count + 16 * (said.2.ahead.length + 1) ≤ 16 * asked.state.ahead.length + asked.rule.credit

/-- The contract of a call: the calls it makes are below it, and each keeps to its cost. What is
    kept in mind is the number of calls so far. -/
def pace (asked : Call) : Contract Nat where
  may _ next := next.Below asked
  leads count next said count' := ∃ more, Spent next more said ∧ count' = count + more

namespace Script

variable {asked : Call} {tokens slack : Nat} {α β : Type}

/-- A part of a rule that is left with no more than a number of tokens and makes no more calls than
    the other tokens pay for, but for a few. -/
def Costs (asked : Call) (out : α → State) (tokens slack : Nat) (script : Script α) : Prop :=
  ∀ count, script.Meets (pace asked)
    (fun count' value => (out value).ahead.length ≤ tokens ∧
      count' + 16 * (out value).ahead.length ≤ count + 16 * tokens + slack) count

theorem Costs.bind {out : α → State} {told : β → State} {script : Script α}
    {more : α → Script β} {k : Nat} (h : script.Costs asked out tokens slack)
    (hmore : ∀ value, (out value).ahead.length ≤ tokens →
      (more value).Costs asked told (out value).ahead.length k) :
    (script >>= more).Costs asked told tokens (slack + k) := by
  intro count
  refine (h count).bind fun count' value ⟨hvalue, hcost⟩ => ?_
  refine (hmore value hvalue count').mono fun count'' after ⟨hafter, hcost'⟩ => ?_
  exact ⟨hafter.trans hvalue, by omega⟩

theorem Costs.mono {out : α → State} {script : Script α} {tokens' slack' : Nat}
    (h : script.Costs asked out tokens slack) (htokens : tokens ≤ tokens')
    (hslack : slack ≤ slack') :
    script.Costs asked out tokens' slack' := fun count =>
  (h count).mono fun _ _ ⟨hvalue, hcost⟩ => ⟨hvalue.trans htokens, by omega⟩

theorem Costs.pure {out : α → State} {value : α} (h : (out value).ahead.length ≤ tokens) :
    (Pure.pure value : Script α).Costs asked out tokens 0 := fun count =>
  ⟨h, by omega⟩

theorem Costs.ask_of_below {rule : Rule} {state : State} (hbelow : Call.Below ⟨rule, state⟩ asked)
    (h : state.ahead.length ≤ tokens) :
    (Grammar.ask rule state).Costs asked Prod.snd tokens rule.slack := by
  refine fun count => ⟨hbelow, ?_⟩
  rintro said _ ⟨more, hspent, rfl⟩
  have hcost := hspent.cost
  dsimp only at hcost
  exact ⟨hspent.reads.trans h, by omega⟩

/-- A call that is sure to read a token leaves some of what the token pays for. -/
theorem Costs.ask_of_advances {rule : Rule} {state : State}
    (hbelow : Call.Below ⟨rule, state⟩ asked) (hadvances : ∀ said, Call.Advances ⟨rule, state⟩ said)
    (h : state.ahead.length = tokens + 1) :
    (Grammar.ask rule state).Costs asked Prod.snd tokens rule.credit := by
  refine fun count => ⟨hbelow, ?_⟩
  rintro said _ ⟨more, hspent, rfl⟩
  have hcost := hspent.advances (hadvances said)
  have hcredit := rule.credit_le
  dsimp only at hcost
  exact ⟨by omega, by omega⟩

theorem Costs.ask {rule : Rule} {state : State} (h : state.ahead.length ≤ tokens)
    (htokens : tokens < asked.state.ahead.length) :
    (Grammar.ask rule state).Costs asked Prod.snd tokens rule.slack :=
  .ask_of_below (.inl (h.trans_lt htokens)) h

theorem Costs.behind {rule : Rule} {state : State}
    (h : (Grammar.ask rule state).Costs asked Prod.snd tokens slack) :
    (Grammar.goOn rule state).Costs asked id tokens slack := fun count =>
  ⟨(h count).1, (h count).2⟩

theorem Costs.goOn {rule : Rule} {state : State} (h : state.ahead.length ≤ tokens)
    (htokens : tokens < asked.state.ahead.length) :
    (Grammar.goOn rule state).Costs asked id tokens rule.slack :=
  (Costs.ask h htokens).behind

theorem Costs.onlyIf {present : Bool} {script : Script State} {otherwise : State}
    (h : present = true → script.Costs asked id tokens slack)
    (hnot : present = false → otherwise.ahead.length ≤ tokens) :
    (script.onlyIf present otherwise).Costs asked id tokens slack := by
  intro count
  refine .onlyIf (fun hpresent => h hpresent count) fun habsent => ?_
  have hotherwise := hnot habsent
  exact ⟨hotherwise, by dsimp only [id]; omega⟩

/-- A rule that reads a token, or may be at the end, keeps to its cost when its parts do. -/
theorem Costs.spent {script : Script Answer}
    (h : script.Costs asked Prod.snd (asked.state.ahead.length - 1) slack)
    (hadvances : ∀ said, asked.Advances said → 0 < asked.state.ahead.length)
    (hslack : 0 < asked.state.ahead.length ∨ slack + 1 ≤ asked.rule.slack)
    (hcredit : slack + 1 ≤ asked.rule.credit) :
    script.Meets (pace asked) (Spent asked) 1 := by
  refine (h 1).mono fun count said ⟨hsaid, hcost⟩ => ?_
  have hcredit' := asked.rule.credit_le
  refine ⟨by omega, by omega, fun hsaid => ?_⟩
  have hpos := hadvances said hsaid
  omega

/-- What a rule spends that nobody expects to read a token. -/
theorem Costs.spent_of_idle {script : Script Answer} (h : script.Costs asked Prod.snd tokens slack)
    (hidle : ∀ said, ¬ asked.Advances said) (htokens : tokens ≤ asked.state.ahead.length)
    (hslack : 16 * tokens + slack + 1 ≤ 16 * asked.state.ahead.length + asked.rule.slack) :
    script.Meets (pace asked) (Spent asked) 1 := by
  refine (h 1).mono fun count said ⟨hsaid, hcost⟩ => ?_
  exact ⟨hsaid.trans htokens, by omega, fun hadvances => absurd hadvances (hidle said)⟩

theorem Costs.quiet {script : Script State} (h : script.Costs asked id tokens slack) :
    (Call.script.quiet script).Costs asked Prod.snd tokens slack :=
  fun count => (h count).bind fun _ _ hafter => hafter

/-! ## Parts of rules -/

section Parts

variable {state : State}

theorem costs_arrowValue (h : state.ahead.length ≤ tokens)
    (htokens : tokens < asked.state.ahead.length) :
    (arrowValue state).Costs asked id tokens 3 :=
  .onlyIf (fun _ => .goOn (by simp; omega) htokens) fun _ => h

theorem costs_typeRef (h : ((state.start.skip .question).expect .name).ahead.length ≤ tokens)
    (htokens : tokens < asked.state.ahead.length) : (typeRef state).Costs asked id tokens 1 :=
  Costs.bind (.goOn h htokens) fun _ _ => .pure le_rfl

theorem costs_exprList (h : state.ahead.length ≤ tokens)
    (htokens : tokens < asked.state.ahead.length) : (exprList state).Costs asked id tokens 4 :=
  Costs.bind (.goOn h htokens) fun _ hfirst => .goOn le_rfl (hfirst.trans_lt htokens)

theorem costs_condition (h : state.ahead.length ≤ tokens)
    (htokens : tokens < asked.state.ahead.length) : (condition state).Costs asked id tokens 3 :=
  Costs.bind (.goOn ((state.expect_length_le _).trans h) htokens) fun inner _ =>
    .pure (inner.expect_length_le _)

theorem costs_forPart (terminator : Kind) (h : state.ahead.length ≤ tokens)
    (htokens : tokens < asked.state.ahead.length) :
    (forPart terminator state).Costs asked id tokens 4 :=
  Costs.bind (.onlyIf (fun _ => costs_exprList h htokens) fun _ => h) fun after _ =>
    .pure (after.expect_length_le _)

theorem costs_forHead (h : state.ahead.length ≤ tokens)
    (htokens : tokens < asked.state.ahead.length) : (forHead state).Costs asked id tokens 12 :=
  Costs.bind (costs_forPart _ ((state.expect_length_le _).trans h) htokens) fun _ hfirst =>
    Costs.bind (costs_forPart _ le_rfl (hfirst.trans_lt htokens)) fun _ hsecond =>
      costs_forPart _ le_rfl (hsecond.trans_lt (hfirst.trans_lt htokens))

theorem costs_foreachHead (h : state.ahead.length ≤ tokens)
    (htokens : tokens < asked.state.ahead.length) :
    (foreachHead state).Costs asked id tokens 9 := by
  refine Costs.bind (k := 6) (.goOn ((state.expect_length_le _).trans h) htokens)
    fun subject hsubject => ?_
  have hsubject := hsubject.trans_lt htokens
  refine Costs.bind (k := 3) (.goOn (subject.expect_length_le _) hsubject) fun target htarget => ?_
  refine Costs.bind (k := 0) (costs_arrowValue le_rfl (htarget.trans_lt hsubject)) fun value _ => ?_
  exact .pure (value.expect_length_le _)

theorem costs_delimited (sort : ListSort) (h : state.bump.ahead.length ≤ tokens)
    (htokens : tokens < asked.state.ahead.length) :
    (delimited sort state).Costs asked id tokens 1 :=
  Costs.bind (.goOn h htokens) fun after _ => .pure (after.expect_length_le _)

theorem costs_functionParams (h : state.ahead.length ≤ tokens)
    (htokens : tokens < asked.state.ahead.length) :
    (functionParams state).Costs asked id tokens 1 := by
  unfold functionParams
  split
  · exact Costs.bind (costs_delimited _ (by simp; omega) htokens) fun _ _ => .pure le_rfl
  · exact .mono (.pure h) le_rfl (by omega)

theorem costs_functionHead (h : state.ahead.length ≤ tokens)
    (htokens : tokens < asked.state.ahead.length) :
    (functionHead state).Costs asked id tokens 2 := by
  refine Costs.bind (k := 1) (costs_functionParams (state.functionName_length_le.trans h) htokens)
    fun params hparams => .onlyIf (fun _ => costs_typeRef ?_ (hparams.trans_lt htokens))
      fun _ => le_rfl
  refine (State.expect_length_le _ _).trans ((State.skip_length_le _ _).trans ?_)
  simp

end Parts

/-! ## Items -/

/-- The kinds that a parameter begins with. -/
theorem kind_of_canStartParam {kind : Kind} (h : canStartParam.contains kind = true) :
    kind = .name ∨ kind = .question ∨ kind = .variableName ∨ kind = .operator := by
  revert h
  cases kind <;> decide

section Items

variable {state : State}

/-- A parameter reads a token, unless it begins at an operator other than `&`. -/
theorem costs_paramName (hfirst : state.isAtOneOf canStartParam = true)
    (hamp : state.isAt .operator = true → state.isAtText .operator "&" = true)
    (h : state.ahead.length = tokens + 1) (htokens : tokens < asked.state.ahead.length) :
    (paramName state).Costs asked id tokens 1 := by
  have hmarked : ∀ typed : State, ((if typed.isAtText .operator "&" then typed.bump
      else typed).expect .variableName).ahead.length ≤ typed.ahead.length := fun typed =>
    (State.expect_length_le _ _).trans (by split <;> simp)
  unfold paramName
  -- With a type in front its token pays; without one the name itself is ahead, or a `&` is.
  by_cases htyped : (state.isAt .name || state.isAt .question) = true
  · refine Costs.bind (k := 0) (.onlyIf (fun _ => costs_typeRef ?_ htokens) fun h => ?_)
      fun typed _ => .pure (hmarked typed)
    · exact (@State.expect_skip_length_le state.start htyped).trans (by simp [h])
    · exact absurd (h.symm.trans htyped) Bool.false_ne_true
  · rw [Bool.not_eq_true] at htyped
    rw [htyped]
    refine .mono (.pure ?_) le_rfl (by omega)
    rcases kind_of_canStartParam hfirst with hkind | hkind | hkind | hkind
    · simp [State.isAt, hkind] at htyped
    · simp [State.isAt, hkind] at htyped
    · have hunmarked : state.isAtText .operator "&" = false := by
        simp [State.isAtText, State.isAt, hkind]
      rw [hunmarked]
      exact (State.expect_ahead_of_isAt (beq_iff_eq.mpr hkind) ▸ by simp [h])
    · rw [if_pos (hamp (beq_iff_eq.mpr hkind))]
      refine (State.expect_length_le _ _).trans ?_
      simp [h]

/-- An item reads a token, unless the list is endless. -/
theorem costs_item {sort : ListSort} (hfirst : state.isAtOneOf sort.brackets.first = true)
    (hends : ¬ Call.IsEndless ⟨.items sort, state⟩) (h : state.ahead.length = tokens + 1) :
    (item sort state).Costs ⟨.items sort, state⟩ Prod.snd tokens 11 := by
  have htokens : tokens < state.ahead.length := by omega
  have hbelow : ∀ inside : State, inside.ahead = state.ahead →
      Call.Below ⟨.expr 0, inside⟩ ⟨.items sort, state⟩ := by
    intro inside hinside
    refine .inr ⟨congrArg List.length hinside, ?_⟩
    have hne : state.ahead ≠ [] := List.ne_nil_of_length_eq_add_one h
    simp [Call.rank, Rule.rank, Rule.isList, hne]
  -- Each rule for items reads the first token itself or calls one that is sure to.
  cases sort with
  | argument =>
    change state.isAtOneOf canStartExpr = true at hfirst
    dsimp only [item]
    rw [if_pos hfirst]
    refine .mono (Costs.bind (k := 0) (.ask_of_advances (hbelow state rfl) (fun _ => .inr hfirst) h)
      fun said _ => .pure le_rfl) le_rfl (by decide)
  | element =>
    change state.isAtOneOf canStartExpr = true at hfirst
    dsimp only [item]
    rw [if_pos hfirst]
    refine Costs.bind (k := 3) (Costs.behind (.ask_of_advances (hbelow state.start rfl)
      (fun _ => .inr hfirst) h)) fun key hkey => ?_
    exact Costs.bind (k := 0) (costs_arrowValue le_rfl (hkey.trans_lt htokens)) fun value _ =>
      .pure le_rfl
  | parameter =>
    change state.isAtOneOf canStartParam = true at hfirst
    dsimp only [item]
    rw [if_pos hfirst]
    -- The endless call is the one with another operator than `&` ahead.
    have hamp : state.start.isAt .operator = true → state.start.isAtText .operator "&" = true :=
      fun hat => Bool.of_not_eq_false fun hamp => hends ⟨rfl, hat, hamp⟩
    refine .mono (Costs.bind (k := 3) (costs_paramName hfirst hamp h htokens) fun named hnamed =>
      Costs.bind (k := 0) (.onlyIf (fun _ => .goOn (by simp) (hnamed.trans_lt htokens))
        fun _ => le_rfl) fun value _ => .pure le_rfl) le_rfl (by decide)

theorem item_of_not_first {sort : ListSort} (hfirst : state.isAtOneOf sort.brackets.first = false) :
    item sort state = Pure.pure (false, state) := by
  cases sort with
  | argument => exact if_neg (Bool.eq_false_iff.mp hfirst)
  | element => exact if_neg (Bool.eq_false_iff.mp hfirst)
  | parameter => exact if_neg (Bool.eq_false_iff.mp hfirst)

theorem costs_items {sort : ListSort} (hends : ¬ Call.IsEndless ⟨.items sort, state⟩)
    (hnot : (state.isAt sort.brackets.closing || state.isAt .endOfFile) = false)
    (hneed : state.isAt sort.brackets.separator = true ∨
      state.isAtOneOf sort.brackets.first = true) :
    (items sort state).Costs ⟨.items sort, state⟩ id (state.ahead.length - 1) 12 := by
  have hpos : 0 < state.ahead.length := State.length_pos_of_kind fun hkind => by
    simp [State.isAt, hkind] at hnot
  have htokens : state.ahead.length - 1 < state.ahead.length := by omega
  unfold items
  rw [if_neg (Bool.eq_false_iff.mp hnot)]
  split
  · exact .mono (.goOn (by simp) htokens) le_rfl (by simp [Rule.slack])
  · rename_i hseparator
    have hfirst := hneed.resolve_left hseparator
    refine Costs.bind (k := 1) (costs_item hfirst hends (by omega)) ?_
    rintro ⟨found, after⟩ hafter
    have hbelow := hafter.trans_lt htokens
    -- The list ends where no item was found, and otherwise the rest costs what is left ahead.
    cases found with
    | false => exact .mono (.pure le_rfl) le_rfl (by omega)
    | true =>
      dsimp only
      rw [if_pos rfl]
      split
      · exact .goOn (by simp) hbelow
      · split
        · exact .goOn (after.expect_length_le _) hbelow
        · exact .mono (.pure le_rfl) le_rfl (by omega)

end Items

/-! ## Rules -/

section Rules

variable {state : State}

/-- What a rule spends that reads a token and then asks for something. -/
theorem Costs.spent_of_read {script : Script Answer} (h : script.Costs asked Prod.snd tokens slack)
    (hidle : ∀ said, ¬ asked.Advances said) (htokens : tokens < asked.state.ahead.length)
    (hslack : slack ≤ 15) : script.Meets (pace asked) (Spent asked) 1 :=
  h.spent_of_idle hidle htokens.le (by omega)

theorem paces_operators (least : Nat) (operand : Completed) :
    (operators least operand state).Meets (pace ⟨.operators least operand, state⟩)
      (Spent ⟨.operators least operand, state⟩) 1 := by
  -- The loop makes no call where it stops, and reads an operator where it goes on.
  have hdone : (Pure.pure (some operand, state) : Script Answer).Meets
      (pace ⟨.operators least operand, state⟩) (Spent ⟨.operators least operand, state⟩) 1 :=
    Costs.spent_of_idle (.pure le_rfl) (fun _ => id) le_rfl le_rfl
  have hread : (state.precede operand).bump.ahead.length ≤ state.ahead.length - 1 := by simp
  have htokens : state.kind ≠ .endOfFile → state.ahead.length - 1 < state.ahead.length :=
    fun hkind => Nat.sub_lt (State.length_pos_of_kind hkind) Nat.one_pos
  unfold operators
  dsimp only
  split
  · rename_i hassign
    have htokens := htokens fun hkind => by simp [State.isAt, hkind] at hassign
    refine Costs.spent_of_read (Costs.bind (k := 1) (.goOn hread htokens) fun after hafter => ?_)
      (fun _ => id) htokens (by decide)
    exact .ask le_rfl (hafter.trans_lt htokens)
  · split
    -- The `?` pays for the middle, the `:` and the right side.
    · rename_i hquestion
      have htokens := htokens fun hkind => by simp [State.isAt, hkind] at hquestion
      split
      · exact hdone
      · refine Costs.spent_of_read (Costs.bind (k := 4) (.onlyIf (fun _ => .goOn hread htokens)
          fun _ => hread) fun middle hmiddle => ?_) (fun _ => id) htokens (by decide)
        have hmiddle := hmiddle.trans_lt htokens
        refine Costs.bind (k := 1) (.goOn (middle.expect_length_le _) hmiddle)
          fun after hafter => ?_
        exact .ask le_rfl (hafter.trans_lt hmiddle)
    · split
      · exact hdone
      · rename_i binding hbinding
        have htokens := htokens fun hkind => by simp [hkind, binding?] at hbinding
        split
        · exact hdone
        · refine Costs.spent_of_read (Costs.bind (k := 1) (.goOn hread htokens)
            fun after hafter => ?_) (fun _ => id) htokens (by simp [Rule.slack])
          exact .ask le_rfl (hafter.trans_lt htokens)

theorem paces_postfixes (operand : Completed) :
    (postfixes operand state).Meets (pace ⟨.postfixes operand, state⟩)
      (Spent ⟨.postfixes operand, state⟩) 1 := by
  -- The loop makes no call where it stops, and reads a token where it goes on.
  have hdone : (Pure.pure (some operand, state) : Script Answer).Meets
      (pace ⟨.postfixes operand, state⟩) (Spent ⟨.postfixes operand, state⟩) 1 :=
    Costs.spent_of_idle (.pure le_rfl) (fun _ => id) le_rfl le_rfl
  have hread : (state.precede operand).bump.ahead.length ≤ state.ahead.length - 1 := by simp
  have htokens : ∀ {kind : Kind}, state.kind = kind → kind ≠ .endOfFile →
      state.ahead.length - 1 < state.ahead.length := fun hkind hne =>
    Nat.sub_lt (State.length_pos_of_kind (hkind ▸ hne)) Nat.one_pos
  unfold postfixes
  dsimp only
  split
  · rename_i hkind
    have htokens := htokens hkind (by decide)
    -- The arguments are read by a call that has the parenthesis still ahead.
    have hne : (state.precede operand).ahead ≠ [] := List.ne_nil_of_length_pos (by simp; omega)
    refine Costs.spent_of_read (Costs.bind (k := 1) (Costs.behind (.ask_of_advances (.inr ⟨rfl, ?_⟩)
      (fun _ => hne) ?_)) fun after hafter => ?_) (fun _ => id) htokens (by decide)
    · exact (by decide : 1 < 2)
    · simp; omega
    · exact .ask le_rfl (hafter.trans_lt htokens)
  · rename_i hkind
    have htokens := htokens hkind (by decide)
    refine Costs.spent_of_read (Costs.bind (k := 1) (.onlyIf (fun _ => .goOn hread htokens)
      fun _ => hread) fun after hafter => ?_) (fun _ => id) htokens (by decide)
    exact .ask (after.expect_length_le _) (hafter.trans_lt htokens)
  · rename_i hkind
    have htokens := htokens hkind (by decide)
    refine Costs.spent_of_read (Costs.bind (k := 1) (.goOn hread htokens) fun after hafter => ?_)
      (fun _ => id) htokens (by decide)
    exact .ask le_rfl (hafter.trans_lt htokens)
  · rename_i hkind
    have htokens := htokens hkind (by decide)
    refine Costs.spent_of_read (Costs.bind (k := 1) (.goOn hread htokens) fun after hafter => ?_)
      (fun _ => id) htokens (by decide)
    exact .ask le_rfl (hafter.trans_lt htokens)
  · rename_i hkind
    have htokens := htokens hkind (by decide)
    split
    · exact Costs.spent_of_read (.ask hread htokens) (fun _ => id) htokens (by simp [Rule.slack])
    · exact hdone
  · exact hdone

/-- A rule that reads an operand and asks a loop what stands behind it. -/
theorem paces_operand {outer first : Rule} {loop : Completed → Rule}
    (hbelow : Call.Below ⟨first, state⟩ ⟨outer, state⟩)
    (hloop : ∀ operand, (loop operand).slack = 1) (hslack : first.slack + 1 ≤ outer.slack)
    (hcredit : first.credit + 2 ≤ outer.credit)
    (hadvances : ∀ said, Call.Advances ⟨first, state⟩ said ↔
      said.1.isSome = true ∨ state.isAtOneOf canStartExpr = true)
    (houter : ∀ said, Call.Advances ⟨outer, state⟩ said ↔
      said.1.isSome = true ∨ state.isAtOneOf canStartExpr = true) :
    Script.Meets (pace ⟨outer, state⟩) (Spent ⟨outer, state⟩) 1 (do
      let (operand, after) ← ask first state
      match operand with
      | none => return (none, after)
      | some operand => ask (loop operand) after) := by
  refine ⟨hbelow, ?_⟩
  rintro ⟨operand, after⟩ _ ⟨count, ⟨hreads, hcost, hread⟩, rfl⟩
  dsimp only at hreads hcost hread
  have hcredit' := first.credit_le
  have hcredit'' := outer.credit_le
  -- Without an operand the loop is not entered. With one its token was paid for by the first call.
  cases operand with
  | none =>
    refine ⟨hreads, by dsimp only; omega, fun hsaid => ?_⟩
    have hread := hread ((hadvances _).mpr ((houter _).mp hsaid))
    dsimp only
    omega
  | some operand =>
    have hread := hread ((hadvances _).mpr (.inl rfl))
    refine ⟨.inl (by dsimp only; omega), ?_⟩
    rintro said _ ⟨more, ⟨hmore, hpaid, -⟩, rfl⟩
    have hloop := hloop operand
    dsimp only at hmore hpaid
    exact ⟨by dsimp only; omega, by dsimp only; omega, fun _ => by dsimp only; omega⟩

theorem paces_unary : (unary state).Meets (pace ⟨.unary, state⟩) (Spent ⟨.unary, state⟩) 1 := by
  unfold unary
  split
  · rename_i hleading
    have hpos : 0 < state.ahead.length := State.length_pos_of_kind fun hkind => by
      simp [State.isAt, hkind] at hleading
    refine Costs.spent (Costs.bind (k := 0) (.goOn (by simp) ?_) fun after _ => .pure le_rfl)
      (fun _ _ => hpos) (.inl hpos) (by decide : 4 ≤ 6)
    exact Nat.sub_lt hpos Nat.one_pos
  · exact paces_operand (.inr ⟨rfl, (by decide : 1 < 3)⟩) (fun _ => rfl) le_rfl le_rfl
      (fun _ => Iff.rfl) fun _ => Iff.rfl

theorem paces_expr (least : Nat) : (Call.script ⟨.expr least, state⟩).Meets
    (pace ⟨.expr least, state⟩) (Spent ⟨.expr least, state⟩) 1 :=
  paces_operand (.inr ⟨rfl, (by decide : 3 < 4)⟩) (fun _ => rfl) le_rfl le_rfl
    (fun _ => Iff.rfl) fun _ => Iff.rfl

/-- What ends an expression does not begin one. -/
theorem not_canStartExpr {kind : Kind} (h : endsExpr.contains kind = true) :
    canStartExpr.contains kind = false := by
  revert h
  cases kind <;> decide

theorem paces_primary :
    (primary state).Meets (pace ⟨.primary, state⟩) (Spent ⟨.primary, state⟩) 1 := by
  have htokens : 0 < state.ahead.length → state.ahead.length - 1 < state.ahead.length :=
    fun hpos => Nat.sub_lt hpos Nat.one_pos
  have hread : state.start.bump.ahead.length ≤ state.ahead.length - 1 := by simp
  unfold primary
  split
  · rename_i kind hkind
    have hpos : 0 < state.ahead.length := State.length_pos_of_kind fun hend => by
      simp [hend, operandKind?] at hkind
    exact Costs.spent (.pure (by simp)) (fun _ _ => hpos) (.inl hpos) (by decide : 1 ≤ 4)
  · split
    · rename_i hkind
      have hpos : 0 < state.ahead.length := State.length_pos_of_kind (hkind ▸ by decide)
      exact Costs.spent (Costs.bind (k := 0) (.goOn hread (htokens hpos)) fun inner _ =>
        .pure (inner.expect_length_le _)) (fun _ _ => hpos) (.inl hpos) (by decide : 4 ≤ 4)
    · rename_i hkind
      have hpos : 0 < state.ahead.length := State.length_pos_of_kind (hkind ▸ by decide)
      exact Costs.spent (Costs.bind (k := 0) (costs_delimited _ hread (htokens hpos)) fun _ _ =>
        .pure le_rfl) (fun _ _ => hpos) (.inl hpos) (by decide : 2 ≤ 4)
    · rename_i hkind
      have hpos : 0 < state.ahead.length := State.length_pos_of_kind (hkind ▸ by decide)
      have hnamed := state.start.bump.className_length_le.trans hread
      exact Costs.spent (Costs.bind (k := 0) (.onlyIf (fun _ => .goOn hnamed (htokens hpos))
        fun _ => hnamed) fun _ _ => .pure le_rfl) (fun _ _ => hpos) (.inl hpos) (by decide : 3 ≤ 4)
    -- What is missing in front of a token that ends expressions is reported without reading it.
    · by_cases hends : state.isAtOneOf endsExpr = true
      · refine ⟨state.missingExpr_length_le, ?_, fun hsaid => ?_⟩
        · have hlength := state.missingExpr_length_le
          simp only [Rule.slack]
          omega
        · rcases hsaid with hsome | hstart
          · cases hsome
          · exact absurd (hstart.symm.trans (not_canStartExpr hends)) (by decide)
      · have hpos : 0 < state.ahead.length := State.length_pos_of_kind fun hend => by
          rw [State.isAtOneOf, hend] at hends
          exact hends (by decide)
        refine Costs.spent (.pure ?_) (fun _ _ => hpos) (.inl hpos) (by decide : 1 ≤ 4)
        simp [missingExpr, hends]

/-- A rule that nobody expects to read a token may do nothing. -/
theorem paces_idle {after : State} (hidle : ∀ said, ¬ asked.Advances said)
    (h : after.ahead.length ≤ asked.state.ahead.length) :
    (Call.script.quiet (Pure.pure after)).Meets (pace asked) (Spent asked) 1 :=
  (Costs.quiet (.pure h)).spent_of_idle hidle le_rfl (by have := asked.rule.slack_pos; omega)

theorem paces_memberName : (Call.script ⟨.memberName, state⟩).Meets (pace ⟨.memberName, state⟩)
    (Spent ⟨.memberName, state⟩) 1 := by
  dsimp only [Call.script, memberName]
  split
  · exact paces_idle (fun _ => id) (by simp)
  · exact paces_idle (fun _ => id) (by simp)
  · rename_i hkind
    have hpos : 0 < state.ahead.length := State.length_pos_of_kind (hkind ▸ by decide)
    have htokens : state.ahead.length - 1 < state.ahead.length := Nat.sub_lt hpos Nat.one_pos
    exact Costs.spent_of_read (Costs.quiet (Costs.bind (k := 0) (.goOn (by simp) htokens)
      fun inner _ => .pure (inner.expect_length_le _))) (fun _ => id) htokens (by decide)
  · exact paces_idle (fun _ => id) (by split <;> simp)

theorem paces_items {sort : ListSort} (hends : ¬ Call.IsEndless ⟨.items sort, state⟩) :
    (Call.script ⟨.items sort, state⟩).Meets (pace ⟨.items sort, state⟩)
      (Spent ⟨.items sort, state⟩) 1 := by
  dsimp only [Call.script]
  -- The list does nothing at its end and in front of a token that begins no item. In between it
  -- reads a token in each round.
  by_cases hlast : (state.isAt sort.brackets.closing || state.isAt .endOfFile) = true
  · rw [items, if_pos hlast]
    exact paces_idle (fun _ => id) le_rfl
  · rw [Bool.not_eq_true] at hlast
    have hpos : 0 < state.ahead.length := State.length_pos_of_kind fun hkind => by
      simp [State.isAt, hkind] at hlast
    by_cases hneed : state.isAt sort.brackets.separator = true ∨
        state.isAtOneOf sort.brackets.first = true
    · exact Costs.spent_of_read (Costs.quiet (costs_items hends hlast hneed)) (fun _ => id)
        (Nat.sub_lt hpos Nat.one_pos) (by decide)
    · rw [not_or, Bool.not_eq_true, Bool.not_eq_true] at hneed
      have hdone : items sort state = Pure.pure state := by
        rw [items, hlast, hneed.1, item_of_not_first hneed.2]
        rfl
      rw [hdone]
      exact paces_idle (fun _ => id) le_rfl

theorem paces_commaSeparated : (Call.script ⟨.commaSeparated, state⟩).Meets
    (pace ⟨.commaSeparated, state⟩) (Spent ⟨.commaSeparated, state⟩) 1 := by
  dsimp only [Call.script]
  split
  · rename_i hcomma
    have hpos := State.length_pos_of_isAt hcomma (by decide)
    have htokens : state.ahead.length - 1 < state.ahead.length := Nat.sub_lt hpos Nat.one_pos
    exact Costs.spent_of_read (Costs.quiet (Costs.bind (k := 1) (.goOn (by simp) htokens)
      fun value hvalue => .goOn le_rfl (hvalue.trans_lt htokens))) (fun _ => id) htokens (by decide)
  · exact paces_idle (fun _ => id) le_rfl

theorem paces_unionMembers : (Call.script ⟨.unionMembers, state⟩).Meets
    (pace ⟨.unionMembers, state⟩) (Spent ⟨.unionMembers, state⟩) 1 := by
  dsimp only [Call.script]
  split
  · rename_i hbar
    have hpos : 0 < state.ahead.length := State.length_pos_of_kind fun hkind => by
      simp [State.isAtText, State.isAt, hkind] at hbar
    have htokens : state.ahead.length - 1 < state.ahead.length := Nat.sub_lt hpos Nat.one_pos
    exact Costs.spent_of_read (Costs.quiet (.goOn ((State.expect_length_le _ _).trans (by simp))
      htokens)) (fun _ => id) htokens (by decide)
  · exact paces_idle (fun _ => id) le_rfl

theorem paces_elseifClauses : (Call.script ⟨.elseifClauses, state⟩).Meets
    (pace ⟨.elseifClauses, state⟩) (Spent ⟨.elseifClauses, state⟩) 1 := by
  dsimp only [Call.script]
  split
  · rename_i helseif
    have hpos := State.length_pos_of_isAt helseif (by decide)
    have htokens : state.ahead.length - 1 < state.ahead.length := Nat.sub_lt hpos Nat.one_pos
    refine Costs.spent_of_read (Costs.quiet (Costs.bind (k := 2) (costs_condition (by simp) htokens)
      fun guard hguard => ?_)) (fun _ => id) htokens (by decide)
    -- Each part is left with fewer tokens than the one before it.
    have hguard := hguard.trans_lt htokens
    exact Costs.bind (k := 1) (.goOn le_rfl hguard) fun governed hgoverned =>
      .goOn le_rfl (hgoverned.trans_lt hguard)
  · exact paces_idle (fun _ => id) le_rfl

theorem paces_elseClause : (Call.script ⟨.elseClause, state⟩).Meets
    (pace ⟨.elseClause, state⟩) (Spent ⟨.elseClause, state⟩) 1 := by
  dsimp only [Call.script]
  split
  · rename_i helse
    have hpos := State.length_pos_of_isAt helse (by decide)
    have htokens : state.ahead.length - 1 < state.ahead.length := Nat.sub_lt hpos Nat.one_pos
    exact Costs.spent_of_read (Costs.quiet (Costs.bind (k := 0) (.goOn (by simp) htokens)
      fun _ _ => .pure le_rfl)) (fun _ => id) htokens (by decide)
  · exact paces_idle (fun _ => id) le_rfl

/-- A statement is asked for in front of a token, and reads one. -/
theorem costs_stmt (hbelow : Call.Below ⟨.stmt, state⟩ asked) (hpos : 0 < state.ahead.length) :
    (Grammar.goOn .stmt state).Costs asked id (state.ahead.length - 1) 15 :=
  Costs.behind (.ask_of_advances hbelow (fun _ => List.ne_nil_of_length_pos hpos) (by omega))

theorem paces_body : (Call.script ⟨.body, state⟩).Meets (pace ⟨.body, state⟩)
    (Spent ⟨.body, state⟩) 1 := by
  dsimp only [Call.script]
  split
  · exact paces_idle (fun _ => id) le_rfl
  · rename_i hnot
    have hpos : 0 < state.ahead.length := State.length_pos_of_kind fun hkind => by
      simp [State.isAt, hkind] at hnot
    exact Costs.spent_of_read (Costs.quiet (costs_stmt (.inr ⟨rfl, (by decide : 6 < 7)⟩) hpos))
      (fun _ => id) (Nat.sub_lt hpos Nat.one_pos) (by decide)

theorem paces_stmtList (closing : Kind) : (Call.script ⟨.stmtList closing, state⟩).Meets
    (pace ⟨.stmtList closing, state⟩) (Spent ⟨.stmtList closing, state⟩) 1 := by
  dsimp only [Call.script, stmtList]
  split
  · exact paces_idle (fun _ => id) le_rfl
  · rename_i hnot
    have hpos : 0 < state.ahead.length := State.length_pos_of_kind fun hkind => by
      simp [State.isAt, hkind] at hnot
    have htokens : state.ahead.length - 1 < state.ahead.length := Nat.sub_lt hpos Nat.one_pos
    -- The first statement is read with as many tokens ahead, but by a rule of lower rank.
    have hbelow : Call.Below ⟨.stmt, state⟩ ⟨.stmtList closing, state⟩ := by
      refine .inr ⟨rfl, ?_⟩
      simp [Call.rank, Rule.rank, Rule.isList, List.ne_nil_of_length_pos hpos]
    refine Costs.spent_of_idle (Costs.quiet (Costs.bind (k := 1) (costs_stmt hbelow hpos)
      fun after hafter => .goOn ?_ (hafter.trans_lt htokens))) (fun _ => id) htokens.le ?_
    · dsimp only [id]
      split <;> simp
    · dsimp only [Rule.slack]
      omega

/-- What a bracket is read for comes below, also where the text ends and nothing is read. -/
theorem below_bracket {inner outer : Rule} (hinner : state.ahead = [] →
    Call.rank ⟨inner, state.start.bump⟩ < Call.rank ⟨outer, state⟩) :
    Call.Below ⟨inner, state.start.bump⟩ ⟨outer, state⟩ := by
  rcases hahead : state.ahead with _ | ⟨token, more⟩
  · exact .inr ⟨by simp [hahead], hinner hahead⟩
  · exact .inl (by simp [hahead])

theorem paces_argList : (Call.script ⟨.argList, state⟩).Meets (pace ⟨.argList, state⟩)
    (Spent ⟨.argList, state⟩) 1 := by
  have hbelow : Call.Below ⟨.items .argument, state.start.bump⟩ ⟨.argList, state⟩ :=
    below_bracket fun hahead => by simp [Call.rank, Rule.rank, Rule.isList, hahead]
  have hdelimited : (delimited .argument state.start).Costs ⟨.argList, state⟩ id
      (state.ahead.length - 1) 1 :=
    Costs.bind (k := 0) (Costs.behind (.ask_of_below hbelow (by simp))) fun after _ =>
      .pure (after.expect_length_le _)
  exact Costs.spent (Costs.quiet (Costs.bind (k := 0) hdelimited fun _ _ => .pure le_rfl))
    (fun _ => List.length_pos_iff.mpr) (.inr le_rfl) (by decide : 2 ≤ 14)

theorem paces_block : (Call.script ⟨.block, state⟩).Meets (pace ⟨.block, state⟩)
    (Spent ⟨.block, state⟩) 1 := by
  have hbelow : Call.Below ⟨.stmtList .rightBrace, state.start.bump⟩ ⟨.block, state⟩ :=
    below_bracket fun hahead => by simp [Call.rank, Rule.rank, Rule.isList, hahead]
  exact Costs.spent (Costs.quiet (Costs.bind (k := 0)
    (Costs.behind (.ask_of_below hbelow (by simp))) fun after _ =>
      .pure (after.expect_length_le _)))
    (fun _ => List.length_pos_iff.mpr) (.inr le_rfl) (by decide : 2 ≤ 14)

/-- A loop calls the rule for its head and the one for the statement that it governs. -/
theorem costs_loop {head : Script State} {finish : State → State}
    (htokens : tokens < asked.state.ahead.length) (hhead : head.Costs asked id tokens slack)
    (hfinish : ∀ after, (finish after).ahead.length ≤ after.ahead.length) :
    (do
      let head ← head
      let after ← goOn .body head
      return finish after).Costs asked id tokens (slack + 1) :=
  Costs.bind (k := 1) hhead fun _ hguard =>
    Costs.bind (k := 0) (.goOn le_rfl (hguard.trans_lt htokens)) fun after _ => .pure (hfinish after)

/-- What is read behind a keyword costs what its parts do, and the keyword pays for it. -/
theorem paces_keyword {kind : Kind} {script : Script State} (hkind : state.kind = kind)
    (hend : kind ≠ .endOfFile) (hslack : slack ≤ 14)
    (h : state.ahead.length - 1 < state.ahead.length →
      script.Costs ⟨.stmt, state⟩ id (state.ahead.length - 1) slack) :
    (Call.script.quiet script).Meets (pace ⟨.stmt, state⟩) (Spent ⟨.stmt, state⟩) 1 := by
  have hpos : 0 < state.ahead.length := State.length_pos_of_kind (hkind ▸ hend)
  refine (Costs.quiet (h (Nat.sub_lt hpos Nat.one_pos))).spent (fun _ _ => hpos) (.inl hpos) ?_
  dsimp only [Rule.credit]
  omega

/-- `return`, `break` and `continue`, with a value or without one. -/
theorem paces_jump {kind node : Kind} (hkind : state.kind = kind) (hend : kind ≠ .endOfFile) :
    (Call.script.quiet (stmt.jump state node)).Meets (pace ⟨.stmt, state⟩)
      (Spent ⟨.stmt, state⟩) 1 :=
  have hinside : state.start.bump.ahead.length ≤ state.ahead.length - 1 := by simp
  paces_keyword hkind hend (by decide) fun htokens =>
    Costs.bind (k := 0) (.onlyIf (fun _ => .goOn hinside htokens) fun _ => hinside)
      fun value _ => .pure (value.expect_length_le _)

/-- A token that no statement begins with is rejected by the call itself. -/
theorem paces_reject (message : String) :
    (Call.script.quiet (Pure.pure (state.reject message))).Meets (pace ⟨.stmt, state⟩)
      (Spent ⟨.stmt, state⟩) 1 :=
  Costs.spent (Costs.quiet (.pure (by simp))) (fun _ => List.length_pos_iff.mpr) (.inr le_rfl)
    (by decide : 1 ≤ 15)

/-- One case for each first token. A condition makes the most calls behind its keyword. -/
theorem paces_stmt : (Call.script ⟨.stmt, state⟩).Meets (pace ⟨.stmt, state⟩)
    (Spent ⟨.stmt, state⟩) 1 := by
  have hinside : state.start.bump.ahead.length ≤ state.ahead.length - 1 := by simp
  dsimp only [Call.script, stmt]
  split <;> rename_i hkind
  · -- A block is a call of its own, with the opening brace still ahead.
    refine paces_keyword hkind (by decide) le_rfl fun htokens => ?_
    have hpos : 0 < state.ahead.length := by omega
    exact Costs.behind (.ask_of_advances (.inr ⟨rfl, (by decide : 5 < 6)⟩)
      (fun _ => List.ne_nil_of_length_pos hpos) (by omega))
  · exact paces_keyword hkind (by decide) (by decide) fun htokens =>
      Costs.bind (k := 0) (costs_exprList hinside htokens) fun values _ =>
        .pure (values.expect_length_le _)
  · exact paces_jump hkind (by decide)
  · exact paces_jump hkind (by decide)
  · exact paces_jump hkind (by decide)
  · refine paces_keyword hkind (by decide) (by decide) fun htokens =>
      Costs.bind (k := 3) (costs_condition hinside htokens) fun guard hguard => ?_
    have hguard := hguard.trans_lt htokens
    refine Costs.bind (k := 2) (.goOn le_rfl hguard) fun governed hgoverned => ?_
    have hgoverned := hgoverned.trans_lt hguard
    refine Costs.bind (k := 1) (.goOn le_rfl hgoverned) fun branches hbranches => ?_
    exact Costs.bind (k := 0) (.goOn le_rfl (hbranches.trans_lt hgoverned)) fun _ _ => .pure le_rfl
  · exact paces_keyword hkind (by decide) (by decide) fun htokens =>
      costs_loop htokens (costs_condition hinside htokens) fun _ => le_rfl
  · exact paces_keyword hkind (by decide) (by decide) fun htokens =>
      Costs.bind (k := 3) (.goOn hinside htokens) fun governed hgoverned =>
        Costs.bind (k := 0) (costs_condition (governed.expect_length_le _)
          (hgoverned.trans_lt htokens)) fun guard _ => .pure (guard.expect_length_le _)
  · exact paces_keyword hkind (by decide) (by decide) fun htokens =>
      costs_loop htokens (costs_forHead hinside htokens) fun _ => le_rfl
  · exact paces_keyword hkind (by decide) (by decide) fun htokens =>
      costs_loop htokens (costs_foreachHead hinside htokens) fun _ => le_rfl
  · exact paces_keyword hkind (by decide) (by decide) fun htokens =>
      Costs.bind (k := 2) (costs_functionHead hinside htokens) fun head hhead =>
        Costs.bind (k := 0) (.onlyIf (fun _ => .goOn le_rfl (hhead.trans_lt htokens))
          fun _ => le_rfl) fun _ _ => .pure le_rfl
  · exact paces_keyword hkind (by decide) (Nat.zero_le _) fun _ => .pure hinside
  · exact paces_reject _
  · split <;> rename_i hstart
    · have hpos := State.length_pos_of_isAtOneOf hstart (by decide)
      refine Costs.spent (Costs.quiet (Costs.bind (k := 0) (Costs.behind (.ask_of_advances
        (.inr ⟨rfl, (by decide : 4 < 6)⟩) (fun _ => .inr hstart) ?_)) fun value _ =>
          .pure (value.expect_length_le _))) (fun _ _ => hpos) (.inl hpos) (by decide : 9 ≤ 15)
      simp; omega
    · exact paces_reject _

end Rules

end Script

/-- Every call that is not endless keeps to the pace. -/
theorem Call.paces_script {asked : Call} (h : ¬ asked.IsEndless) :
    asked.script.Meets (pace asked) (Spent asked) 1 := by
  rcases asked with ⟨rule, state⟩
  -- Only the rule for lists has a call that is endless.
  cases rule with
  | expr least => exact Script.paces_expr least
  | operators least operand => exact Script.paces_operators least operand
  | unary => exact Script.paces_unary
  | postfixes operand => exact Script.paces_postfixes operand
  | argList => exact Script.paces_argList
  | memberName => exact Script.paces_memberName
  | primary => exact Script.paces_primary
  | items sort => exact Script.paces_items h
  | commaSeparated => exact Script.paces_commaSeparated
  | unionMembers => exact Script.paces_unionMembers
  | stmtList closing => exact Script.paces_stmtList closing
  | stmt => exact Script.paces_stmt
  | block => exact Script.paces_block
  | body => exact Script.paces_body
  | elseifClauses => exact Script.paces_elseifClauses
  | elseClause => exact Script.paces_elseClause

end Grammar

end PhpAssist

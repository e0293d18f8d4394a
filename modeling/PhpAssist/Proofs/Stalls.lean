import PhpAssist.Proofs.Evaluation

/-!
# Stalls

No rule forgets that it was told of a stall: the state behind a call goes into the next call, and
into the answer in the end. And no rule stalls by itself, only one whose allowance is used up does.
So where the rules answer with a state that is not stalled there is an evaluation behind it,
whatever allowance they were given, and where a state stalls the allowance was too short.

## Main definitions

* `Grammar.handsOn`, `Grammar.Script.Keeps`: Scripts that do not forget a stall.
* `Grammar.Kept`: What is known of a call and its answer when the allowance may be too short.

## Theorems

* `Grammar.Call.keeps_script`: Every rule hands stalls on.
* `Grammar.kept_answer`: Behind an answer that is not stalled is an evaluation.
* `Grammar.Runs.stalled`: An evaluation does not stall.
-/

namespace PhpAssist

namespace Grammar

namespace State

variable (state : State)

@[simp] theorem start_stalled : state.start.stalled = state.stalled := rfl

@[simp] theorem precede_stalled (completed : Completed) :
    (state.precede completed).stalled = state.stalled := rfl

@[simp] theorem close_stalled (start : Marker) (kind : Kind) :
    (state.close start kind).stalled = state.stalled := rfl

@[simp] theorem report_stalled (message : String) :
    (state.report message).stalled = state.stalled := rfl

@[simp] theorem bump_stalled : state.bump.stalled = state.stalled := by
  unfold bump
  split <;> rfl

@[simp] theorem expect_stalled (kind : Kind) :
    (state.expect kind).stalled = state.stalled := by
  unfold expect
  split
  · exact bump_stalled state
  · rfl

@[simp] theorem skip_stalled (kind : Kind) : (state.skip kind).stalled = state.stalled := by
  unfold skip
  split
  · exact bump_stalled state
  · rfl

@[simp] theorem reject_stalled (message : String) :
    (state.reject message).stalled = state.stalled :=
  bump_stalled (state.start.report message)

@[simp] theorem leaf_stalled (kind : Kind) : (state.leaf kind).2.stalled = state.stalled :=
  bump_stalled state.start

@[simp] theorem complete_stalled (start : Marker) (kind : Kind) :
    (state.complete start kind).2.stalled = state.stalled := rfl

@[simp] theorem missingExpr_stalled : (missingExpr state).stalled = state.stalled := by
  unfold missingExpr
  split
  · rfl
  · exact reject_stalled state _

@[simp] theorem className_stalled : (className state).stalled = state.stalled := by
  unfold className
  split
  · exact leaf_stalled state _
  · exact leaf_stalled state _
  · rfl

@[simp] theorem rejectUnless_stalled (message : String) (awaited : KindSet) :
    (state.rejectUnless message awaited).stalled = state.stalled := by
  unfold rejectUnless
  split
  · rfl
  · exact reject_stalled state _

@[simp] theorem functionName_stalled : (functionName state).stalled = state.stalled := by
  dsimp only [functionName]
  split <;> split <;> simp

end State

/-- A script hands a stall on to its next call, and the last one to its answer. -/
def handsOn : Contract Bool where
  may stalled asked := asked.state.stalled = stalled
  leads _ _ reply stalled := reply.2.stalled = stalled

namespace Script

variable {α β : Type} {out : α → State} {told : β → State} {stalled : Bool} {state : State}

/-- A script that hands stalls on, and begins where nothing or something stalled. -/
def Keeps (out : α → State) (stalled : Bool) (script : Script α) : Prop :=
  script.Meets handsOn (fun stalled value => (out value).stalled = stalled) stalled

theorem Keeps.bind {script : Script α} {more : α → Script β} (h : script.Keeps out stalled)
    (hmore : ∀ value, (more value).Keeps told (out value).stalled) :
    (script >>= more).Keeps told stalled :=
  Meets.bind h fun _ value hvalue => hvalue ▸ hmore value

theorem Keeps.pure {value : α} (h : (out value).stalled = stalled) :
    (Pure.pure value : Script α).Keeps out stalled := h

theorem Keeps.goOn {rule : Rule} (h : state.stalled = stalled) :
    (goOn rule state).Keeps id stalled := ⟨h, fun _ _ hreply => hreply⟩

theorem Keeps.ask {rule : Rule} (h : state.stalled = stalled) :
    (ask rule state).Keeps Prod.snd stalled := ⟨h, fun _ _ hreply => hreply⟩

theorem Keeps.onlyIf {present : Bool} {script : Script State}
    (h : script.Keeps id stalled) (hnot : state.stalled = stalled) :
    (script.onlyIf present state).Keeps id stalled :=
  Meets.onlyIf (fun _ => h) fun _ => hnot

theorem keeps_arrowValue (h : state.stalled = stalled) : (arrowValue state).Keeps id stalled :=
  .onlyIf (.goOn (by simpa)) h

theorem keeps_typeRef (h : state.stalled = stalled) : (typeRef state).Keeps id stalled :=
  .bind (.goOn (by simpa)) fun _ => .pure rfl

theorem keeps_paramName (h : state.stalled = stalled) : (paramName state).Keeps id stalled := by
  refine .bind (.onlyIf (keeps_typeRef h) h) fun typed => .pure ?_
  dsimp only [id]
  split <;> simp

theorem keeps_item (sort : ListSort) (h : state.stalled = stalled) :
    (item sort state).Keeps Prod.snd stalled := by
  -- A rule for items that does not begin one returns the state it was given.
  cases sort with
  | argument =>
    dsimp only [item]
    split
    · exact .bind (.ask h) fun _ => .pure rfl
    · exact .pure h
  | element =>
    dsimp only [item]
    split
    · exact .bind (.goOn h) fun _ => .bind (keeps_arrowValue rfl) fun _ => .pure rfl
    · exact .pure h
  | parameter =>
    dsimp only [item]
    split
    · exact .bind (keeps_paramName h) fun _ =>
        .bind (.onlyIf (.goOn (by simp)) rfl) fun _ => .pure rfl
    · exact .pure h

theorem keeps_delimited {sort : ListSort} (h : state.stalled = stalled) :
    (delimited sort state).Keeps id stalled :=
  .bind (.goOn (by simpa)) fun _ => .pure (by simp)

theorem keeps_exprList (h : state.stalled = stalled) : (exprList state).Keeps id stalled :=
  .bind (.goOn h) fun _ => .goOn rfl

theorem keeps_condition (h : state.stalled = stalled) : (condition state).Keeps id stalled :=
  .bind (.goOn (by simpa)) fun _ => .pure (by simp)

theorem keeps_forPart (terminator : Kind) (h : state.stalled = stalled) :
    (forPart terminator state).Keeps id stalled :=
  .bind (.onlyIf (keeps_exprList h) h) fun _ => .pure (by simp)

theorem keeps_forHead (h : state.stalled = stalled) : (forHead state).Keeps id stalled :=
  .bind (keeps_forPart _ (by simpa)) fun _ => .bind (keeps_forPart _ rfl) fun _ =>
    keeps_forPart _ rfl

theorem keeps_foreachHead (h : state.stalled = stalled) : (foreachHead state).Keeps id stalled :=
  .bind (.goOn (by simpa)) fun _ => .bind (.goOn (by simp)) fun _ =>
    .bind (keeps_arrowValue rfl) fun _ => .pure (by simp)

theorem keeps_functionParams (h : state.stalled = stalled) :
    (functionParams state).Keeps id stalled := by
  unfold functionParams
  split
  · exact .bind (keeps_delimited h) fun _ => .pure rfl
  · exact .pure h

theorem keeps_functionHead (h : state.stalled = stalled) : (functionHead state).Keeps id stalled :=
  .bind (keeps_functionParams (by simpa)) fun _ => .onlyIf (keeps_typeRef (by simp)) rfl

theorem keeps_operators (least : Nat) (operand : Completed) :
    (operators least operand state).Keeps Prod.snd state.stalled := by
  unfold operators
  dsimp only
  -- Whatever the operator, what is read behind it begins where the loop stands.
  split
  · exact .bind (.goOn (by simp)) fun _ => .ask rfl
  · split
    · split
      · exact .pure rfl
      · exact .bind (.onlyIf (.goOn (by simp)) (by simp)) fun _ =>
          .bind (.goOn (by simp)) fun _ => .ask rfl
    · split
      · exact .pure rfl
      · split
        · exact .pure rfl
        · exact .bind (.goOn (by simp)) fun _ => .ask rfl

theorem keeps_unary : (unary state).Keeps Prod.snd state.stalled := by
  unfold unary
  split
  · exact .bind (.goOn (by simp)) fun _ => .pure rfl
  · refine .bind (.ask rfl) fun (operand, after) => ?_
    cases operand with
    | none => exact .pure rfl
    | some operand => exact .ask rfl

theorem keeps_postfixes (operand : Completed) :
    (postfixes operand state).Keeps Prod.snd state.stalled := by
  unfold postfixes
  dsimp only
  split
  · exact .bind (.goOn (by simp)) fun _ => .ask rfl
  · exact .bind (.onlyIf (.goOn (by simp)) (by simp)) fun _ => .ask (by simp)
  · exact .bind (.goOn (by simp)) fun _ => .ask rfl
  · exact .bind (.goOn (by simp)) fun _ => .ask rfl
  · split
    · exact .ask (by simp)
    · exact .pure rfl
  · exact .pure rfl

theorem keeps_memberName : (memberName state).Keeps id state.stalled := by
  unfold memberName
  split
  · exact .pure (by simp)
  · exact .pure (by simp)
  · exact .bind (.goOn (by simp)) fun _ => .pure (by simp)
  · refine .pure ?_
    dsimp only [id]
    split <;> simp

theorem keeps_primary : (primary state).Keeps Prod.snd state.stalled := by
  unfold primary
  split
  · exact .pure (by simp)
  · split
    · exact .bind (.goOn (by simp)) fun _ => .pure (by simp)
    · exact .bind (keeps_delimited rfl) fun _ => .pure (by simp)
    · exact .bind (.onlyIf (.goOn (by simp)) (by simp)) fun _ => .pure (by simp)
    · exact .pure (by simp)

theorem keeps_items (sort : ListSort) : (items sort state).Keeps id state.stalled := by
  unfold items
  split
  · exact .pure rfl
  · split
    · exact .goOn (by simp)
    · refine .bind (keeps_item sort rfl) fun reply => ?_
      dsimp only
      split
      · split
        · exact .goOn (by simp)
        · split
          · exact .goOn (by simp)
          · exact .pure rfl
      · exact .pure rfl

theorem keeps_stmtList (closing : Kind) : (stmtList closing state).Keeps id state.stalled := by
  unfold stmtList
  split
  · exact .pure rfl
  · refine .bind (.goOn rfl) fun after => .goOn ?_
    dsimp only [id]
    split <;> simp

theorem keeps_jump (kind : Kind) : (stmt.jump state kind).Keeps id state.stalled :=
  .bind (.onlyIf (.goOn (by simp)) (by simp)) fun _ => .pure (by simp)

theorem keeps_stmt : (stmt state).Keeps id state.stalled := by
  have hinside : state.start.bump.stalled = state.stalled := by simp
  unfold stmt
  dsimp only
  -- One case for each first token, with the calls of its rule in order.
  split
  · exact .goOn rfl
  · exact .bind (keeps_exprList hinside) fun _ => .pure (by simp)
  · exact keeps_jump _
  · exact keeps_jump _
  · exact keeps_jump _
  · exact .bind (keeps_condition hinside) fun _ => .bind (.goOn rfl) fun _ =>
      .bind (.goOn rfl) fun _ => .bind (.goOn rfl) fun _ => .pure rfl
  · exact .bind (keeps_condition hinside) fun _ => .bind (.goOn rfl) fun _ => .pure rfl
  · exact .bind (.goOn hinside) fun _ => .bind (keeps_condition (by simp)) fun _ =>
      .pure (by simp)
  · exact .bind (keeps_forHead hinside) fun _ => .bind (.goOn rfl) fun _ => .pure rfl
  · exact .bind (keeps_foreachHead hinside) fun _ => .bind (.goOn rfl) fun _ => .pure rfl
  · exact .bind (keeps_functionHead hinside) fun _ =>
      .bind (.onlyIf (.goOn rfl) (by simp)) fun _ => .pure rfl
  · exact .pure (by simp)
  · exact .pure (by simp)
  · split
    · exact .bind (.goOn (by simp)) fun _ => .pure (by simp)
    · exact .pure (by simp)

theorem Keeps.quiet {script : Script State} (h : script.Keeps id stalled) :
    (Call.script.quiet script).Keeps Prod.snd stalled :=
  .bind h fun _ => .pure rfl

end Script

/-- No rule forgets a stall, and none stalls by itself. -/
theorem Call.keeps_script (asked : Call) :
    asked.script.Keeps Prod.snd asked.state.stalled := by
  rcases asked with ⟨rule, state⟩
  -- No rule unsets the mark, as each of them goes on with the state of its last call.
  cases rule with
  | expr least =>
    refine .bind (.ask rfl) fun (operand, after) => ?_
    cases operand with
    | none => exact .pure rfl
    | some operand => exact .ask rfl
  | operators least operand => exact Script.keeps_operators least operand
  | unary => exact Script.keeps_unary
  | postfixes operand => exact Script.keeps_postfixes operand
  | argList => exact .quiet (.bind (Script.keeps_delimited rfl) fun _ => .pure rfl)
  | memberName => exact .quiet Script.keeps_memberName
  | primary => exact Script.keeps_primary
  | items sort => exact .quiet (Script.keeps_items sort)
  | commaSeparated =>
    refine .quiet ?_
    split
    · exact .bind (.goOn (by simp)) fun _ => .goOn rfl
    · exact .pure rfl
  | unionMembers =>
    refine .quiet ?_
    split
    · exact .goOn (by simp)
    · exact .pure rfl
  | stmtList closing => exact .quiet (Script.keeps_stmtList closing)
  | stmt => exact .quiet Script.keeps_stmt
  | block => exact .quiet (.bind (.goOn (by simp)) fun _ => .pure (by simp))
  | body =>
    refine .quiet ?_
    split
    · exact .pure rfl
    · exact .goOn rfl
  | elseifClauses =>
    refine .quiet ?_
    split
    · exact .bind (Script.keeps_condition (by simp)) fun _ => .bind (.goOn rfl) fun _ =>
        .goOn rfl
    · exact .pure rfl
  | elseClause =>
    refine .quiet ?_
    split
    · exact .bind (.goOn (by simp)) fun _ => .pure rfl
    · exact .pure rfl

/-- What is known of a call and its answer, whether or not the allowance was enough: a stall is not
    forgotten, and an answer without one has an evaluation behind it. -/
structure Kept (asked : Call) (said : Answer) : Prop where
  stalled : asked.state.stalled = true → said.2.stalled = true
  runs : said.2.stalled = false → ∃ journal, Runs asked.script said journal

theorem Script.Keeps.answered {script : Script Answer} {stalled : Bool} {answers : Call → Answer}
    (h : script.Keeps Prod.snd stalled) (hanswers : ∀ asked, Kept asked (answers asked)) :
    (stalled = true → (script.answered answers).2.stalled = true) ∧
      ((script.answered answers).2.stalled = false →
        ∃ journal, Runs script (script.answered answers) journal) := by
  induction script generalizing stalled with
  | done said => exact ⟨fun hstalled => h.trans hstalled, fun _ => ⟨[], .done said⟩⟩
  | call asked behind ih =>
    rcases h with ⟨hasked, hbehind⟩
    rcases ih (answers asked) (hbehind _ _ rfl) with ⟨hhandsOn, hruns⟩
    refine ⟨fun hstalled => hhandsOn ((hanswers asked).stalled (hasked.trans hstalled)), ?_⟩
    intro hsaid
    -- Had this call stalled, so would everything behind it.
    have hreply : (answers asked).2.stalled = false := by
      cases hreply : (answers asked).2.stalled with
      | false => rfl
      | true => exact (hhandsOn hreply).symm.trans hsaid
    rcases (hanswers asked).runs hreply with ⟨journal, hjournal⟩
    rcases hruns hsaid with ⟨more, hmore⟩
    exact ⟨_, .call hjournal hmore⟩

theorem Kept.of_answered {asked : Call} {answers : Call → Answer}
    (h : ∀ next, Kept next (answers next)) : Kept asked (asked.script.answered answers) :=
  ⟨(asked.keeps_script.answered h).1, (asked.keeps_script.answered h).2⟩

theorem kept_zero (each : Nat) (asked : Call) : Kept asked (answer each 0 asked) := by
  refine ⟨fun _ => ?_, fun h => ?_⟩
  · rw [answer_zero]
    rfl
  · rw [answer_zero] at h
    exact absurd h (by simp [State.stall])

/-- The repetitions go on with an allowance of their own, beside the one that their items have. -/
theorem kept_repetition {each : Nat}
    (h : ∀ asked, asked.rule.repeats = false → Kept asked (answer each each asked))
    (allowance : Nat) {asked : Call} (hrepeats : asked.rule.repeats = true) :
    Kept asked (answer each allowance asked) := by
  induction allowance generalizing asked with
  | zero => exact kept_zero each asked
  | succ allowance ih =>
    rw [answer_succ, if_pos hrepeats]
    refine .of_answered fun next => ?_
    unfold answers
    by_cases hnext : next.rule.repeats = true
    · rw [if_pos hnext]
      exact ih hnext
    · rw [if_neg hnext]
      exact h next (Bool.eq_false_iff.mpr hnext)

theorem kept_single (each allowance : Nat) {asked : Call}
    (hsingle : asked.rule.repeats = false) : Kept asked (answer each allowance asked) := by
  induction allowance generalizing each asked with
  | zero => exact kept_zero each asked
  | succ allowance ih =>
    rw [answer_succ, if_neg (Bool.eq_false_iff.mp hsingle)]
    refine .of_answered fun next => ?_
    rw [answers, ite_self]
    by_cases hnext : next.rule.repeats = true
    · exact kept_repetition (fun _ => ih allowance) allowance hnext
    · exact ih allowance (Bool.eq_false_iff.mpr hnext)

/-- Behind an answer without a stall is an evaluation. -/
theorem kept_answer (each allowance : Nat) (asked : Call) :
    Kept asked (answer each allowance asked) := by
  by_cases hrepeats : asked.rule.repeats = true
  · exact kept_repetition (fun _ => kept_single each each) allowance hrepeats
  · exact kept_single each allowance (Bool.eq_false_iff.mpr hrepeats)

/-- An evaluation stalls nowhere. -/
theorem Runs.stalled {script : Script Answer} {said : Answer} {journal : List Call} {stalled : Bool}
    (h : Runs script said journal) (hkeeps : script.Keeps Prod.snd stalled) :
    said.2.stalled = stalled := by
  induction h generalizing stalled with
  | done => exact hkeeps
  | @call asked behind reply said journal more _ _ ih ihmore =>
    rcases hkeeps with ⟨hasked, hbehind⟩
    rw [ihmore (hbehind reply _ rfl), ih asked.keeps_script, hasked]

end Grammar

end PhpAssist

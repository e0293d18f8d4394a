import Mathlib.Data.List.Induction
import PhpAssist.Format.Specifier
import PhpAssist.Literal.Escape
import PhpAssist.Proofs.Following
import PhpAssist.Proofs.TextEnds

/-!
# What is open in a quoted string

Looking for the end of a quoted string is reading with a memory: what is open, and whether the last
character was a backslash or a brace that waits for the next one. Reading a text in pieces is then
reading one piece after the other, and a piece that leaves just its string open can be followed by
anything.

Joining two such pieces gives another one, whatever is written at the border.

## Main definitions

* `Quoted.State`: What is open, and the character that waits for the next one.
* `Quoted.State.run`: Reading a text.
* `Quoted.Inside`: A text that leaves just its string open.

## Theorems

* `Quoted.State.ends_run`: Where a string ends is found by reading.
* `Quoted.State.endsInEscape_run`: What waits at the end of a text in a string.
* `Quoted.Inside.close`, `Quoted.Inside.of_close`: Such a text is what a quote ends.
* `Quoted.Inside.push`: Joining keeps the string open.
-/

namespace PhpAssist

open Text

namespace Quoted

/-- A character that waits for the next one. -/
inductive Held where
  | nothing
  | escape
  | brace
  deriving DecidableEq

/-- The character that is held back, if there is one. -/
def Held.text : Held → Text
  | .nothing => []
  | .escape => ['\\']
  | .brace => ['{']

/-- What is open, the innermost first, and the character that waits for the next one. -/
structure State where
  stack : List Open
  held : Held

namespace State

/-- Reads one character. Where nothing is open any more, nothing is read. -/
def step (state : State) (c : Char) : State :=
  match state.stack with
  | [] => state
  | .quote mark :: outer =>
    if state.held = .escape then ⟨.quote mark :: outer, .nothing⟩
    else if state.held = .brace ∧ c = '$' then ⟨.braces 1 :: .quote mark :: outer, .nothing⟩
    else if c = '\\' then ⟨.quote mark :: outer, .escape⟩
    else if c = '{' ∧ mark = '"' then ⟨.quote mark :: outer, .brace⟩
    else if c = mark then ⟨outer, .nothing⟩
    else ⟨.quote mark :: outer, .nothing⟩
  | .braces depth :: outer =>
    if c = '{' then ⟨.braces (depth + 1) :: outer, .nothing⟩
    else if c = '}' then ⟨if depth ≤ 1 then outer else .braces (depth - 1) :: outer, .nothing⟩
    else if c = '\'' ∨ c = '"' then ⟨.quote c :: .braces depth :: outer, .nothing⟩
    else ⟨.braces depth :: outer, .nothing⟩

/-- Reads a text. -/
def run (state : State) (text : Text) : State := text.foldl step state

/-- A character waits in a string only, and a brace in double quotes only. -/
def Sound (state : State) : Prop :=
  match state.held with
  | .nothing => True
  | .escape => ∃ mark outer, state.stack = .quote mark :: outer
  | .brace => ∃ outer, state.stack = .quote '"' :: outer

end State

/-! ## Where a string ends -/

/-- What is left behind the end of what is open, and whether it was found. -/
def ends (stack : List Open) (text : Text) : Text × Bool :=
  ((close stack text).rest, (close stack text).closed)

theorem ends_done (text : Text) : ends [] text = (text, true) := by
  rw [ends, close]

theorem ends_escape (mark c : Char) (outer : List Open) (rest : Text) :
    ends (.quote mark :: outer) ('\\' :: c :: rest) = ends (.quote mark :: outer) rest := by
  rw [ends, close]
  rfl

theorem ends_brace (outer : List Open) (rest : Text) :
    ends (.quote '"' :: outer) ('{' :: '$' :: rest) =
      ends (.braces 1 :: .quote '"' :: outer) ('$' :: rest) := by
  rw [ends, close_quote (by decide), if_pos ⟨rfl, rfl, rfl⟩]
  rfl

theorem ends_quote {mark c : Char} {outer : List Open} {rest : Text} (hslash : c ≠ '\\')
    (hbrace : ¬ (c = '{' ∧ mark = '"' ∧ rest.head? = some '$')) :
    ends (.quote mark :: outer) (c :: rest) =
      if c = mark then ends outer rest else ends (.quote mark :: outer) rest := by
  rw [ends, close_quote hslash, if_neg hbrace]
  split <;> rfl

theorem ends_braces (depth : Nat) (outer : List Open) (c : Char) (rest : Text) :
    ends (.braces depth :: outer) (c :: rest) =
      if c = '{' then ends (.braces (depth + 1) :: outer) rest
      else if c = '}' then ends (if depth ≤ 1 then outer else .braces (depth - 1) :: outer) rest
      else if c = '\'' ∨ c = '"' then ends (.quote c :: .braces depth :: outer) rest
      else ends (.braces depth :: outer) rest := by
  rw [ends, close]
  split
  · rfl
  split
  · rfl
  split <;> rfl

namespace State

theorem step_quote (mark : Char) (outer : List Open) (held : Held) (c : Char) :
    step ⟨.quote mark :: outer, held⟩ c =
      if held = .escape then ⟨.quote mark :: outer, .nothing⟩
      else if held = .brace ∧ c = '$' then ⟨.braces 1 :: .quote mark :: outer, .nothing⟩
      else if c = '\\' then ⟨.quote mark :: outer, .escape⟩
      else if c = '{' ∧ mark = '"' then ⟨.quote mark :: outer, .brace⟩
      else if c = mark then ⟨outer, .nothing⟩
      else ⟨.quote mark :: outer, .nothing⟩ := rfl

theorem step_braces (depth : Nat) (outer : List Open) (held : Held) (c : Char) :
    step ⟨.braces depth :: outer, held⟩ c =
      if c = '{' then ⟨.braces (depth + 1) :: outer, .nothing⟩
      else if c = '}' then ⟨if depth ≤ 1 then outer else .braces (depth - 1) :: outer, .nothing⟩
      else if c = '\'' ∨ c = '"' then ⟨.quote c :: .braces depth :: outer, .nothing⟩
      else ⟨.braces depth :: outer, .nothing⟩ := rfl

/-- Behind a brace a character other than a dollar sign is read as by itself. -/
theorem step_brace {stack : List Open} {c : Char} (hc : c ≠ '$') :
    step ⟨stack, .brace⟩ c = ⟨(step ⟨stack, .nothing⟩ c).stack,
      if stack = [] then .brace else (step ⟨stack, .nothing⟩ c).held⟩ := by
  rcases stack with _ | ⟨_ | _, outer⟩
  · rfl
  · simp only [step, hc, and_false, if_false, reduceCtorEq]
  · simp only [step, reduceCtorEq, if_false]

/-- A character in a string, where nothing waits. -/
theorem ends_step_quote (mark : Char) (outer : List Open) (c : Char) (rest : Text) :
    ends (.quote mark :: outer) (c :: rest) =
      ends (step ⟨.quote mark :: outer, .nothing⟩ c).stack
        ((step ⟨.quote mark :: outer, .nothing⟩ c).held.text ++ rest) := by
  have hstep : step ⟨.quote mark :: outer, .nothing⟩ c =
      if c = '\\' then ⟨.quote mark :: outer, .escape⟩
      else if c = '{' ∧ mark = '"' then ⟨.quote mark :: outer, .brace⟩
      else if c = mark then ⟨outer, .nothing⟩
      else ⟨.quote mark :: outer, .nothing⟩ := rfl
  rw [hstep]
  -- The search for the end asks the same three questions of the character.
  by_cases hslash : c = '\\'
  · rw [if_pos hslash, hslash]
    rfl
  rw [if_neg hslash]
  by_cases hbrace : c = '{' ∧ mark = '"'
  · rw [if_pos hbrace, hbrace.1]
    rfl
  rw [if_neg hbrace, ends_quote hslash fun h => hbrace ⟨h.1, h.2.1⟩]
  by_cases hmark : c = mark
  · rw [if_pos hmark, if_pos hmark]
    rfl
  · rw [if_neg hmark, if_neg hmark]
    rfl

/-- One character does not change where what is open ends. -/
theorem ends_step {state : State} (h : state.Sound) (hopen : state.stack ≠ []) (c : Char)
    (rest : Text) : ends state.stack (state.held.text ++ c :: rest) =
      ends (state.step c).stack ((state.step c).held.text ++ rest) := by
  -- Inside of a string one character may wait, inside of braces none does.
  rcases state with ⟨_ | ⟨mark | depth, outer⟩, held⟩
  · exact absurd rfl hopen
  · cases held with
    | nothing => exact ends_step_quote mark outer c rest
    | escape => exact ends_escape mark c outer rest
    | brace =>
      rcases h with ⟨_, hstack⟩
      injection hstack with hmark
      injection hmark with hmark
      rw [hmark]
      by_cases hdollar : c = '$'
      · rw [hdollar]
        exact (ends_brace outer rest).trans (ends_braces 1 _ '$' rest)
      · -- The brace opens nothing, so it is one of the string.
        have hplain : ends (.quote '"' :: outer) ('{' :: c :: rest) =
            ends (.quote '"' :: outer) (c :: rest) := by
          rw [@ends_quote '"' '{' _ (c :: rest) (by decide) fun h => hdollar (Option.some.inj h.2.2)]
          rfl
        rw [step_brace hdollar, if_neg (List.cons_ne_nil _ _)]
        exact hplain.trans (ends_step_quote '"' outer c rest)
  · have hnothing : held = .nothing := by
      cases held with
      | nothing => rfl
      | escape =>
        rcases h with ⟨_, _, hstack⟩
        injection hstack with htop
        exact absurd htop nofun
      | brace =>
        rcases h with ⟨_, hstack⟩
        injection hstack with htop
        exact absurd htop nofun
    rw [hnothing]
    refine (ends_braces depth outer c rest).trans ?_
    rw [step_braces]
    -- The search asks for braces and quotes, in this order.
    by_cases hopens : c = '{'
    · rw [if_pos hopens, if_pos hopens]
      rfl
    rw [if_neg hopens, if_neg hopens]
    by_cases hcloses : c = '}'
    · rw [if_pos hcloses, if_pos hcloses]
      rfl
    rw [if_neg hcloses, if_neg hcloses]
    by_cases hquotes : c = '\'' ∨ c = '"'
    · rw [if_pos hquotes, if_pos hquotes]
      rfl
    · rw [if_neg hquotes, if_neg hquotes]
      rfl

theorem sound_step {state : State} (hopen : state.stack ≠ []) (c : Char) :
    (state.step c).Sound := by
  -- A character waits only where the step has put it, which is inside of a string.
  rcases state with ⟨_ | ⟨mark | depth, outer⟩, held⟩
  · exact absurd rfl hopen
  · rw [step_quote]
    split
    · trivial
    split
    · trivial
    split
    · exact ⟨mark, outer, rfl⟩
    split
    · rename_i hbrace
      exact ⟨outer, by rw [hbrace.2]⟩
    split <;> trivial
  · rw [step_braces]
    split
    · trivial
    split
    · trivial
    split <;> trivial

/-- Nothing waits where nothing is open. -/
theorem eq_done {state : State} (h : state.Sound) (hdone : state.stack = []) :
    state = ⟨[], .nothing⟩ := by
  rcases state with ⟨stack, held⟩
  cases held with
  | nothing => rw [show stack = [] from hdone]
  | escape =>
    rcases h with ⟨_, _, hstack⟩
    exact absurd (hstack.symm.trans hdone) (List.cons_ne_nil _ _)
  | brace =>
    rcases h with ⟨_, hstack⟩
    exact absurd (hstack.symm.trans hdone) (List.cons_ne_nil _ _)

theorem run_nil (state : State) : state.run [] = state := rfl

theorem run_cons (state : State) (c : Char) (text : Text) :
    state.run (c :: text) = (state.step c).run text := rfl

theorem run_append (state : State) (text more : Text) :
    state.run (text ++ more) = (state.run text).run more := List.foldl_append

/-- Where nothing is open any more, nothing is read. -/
theorem run_done (held : Held) (text : Text) : run ⟨[], held⟩ text = ⟨[], held⟩ := by
  induction text with
  | nil => rfl
  | cons c text ih => exact ih

theorem open_of_run {state : State} {text : Text} (h : (state.run text).stack ≠ []) :
    state.stack ≠ [] := by
  rcases state with ⟨_ | _, held⟩
  · rw [run_done] at h
    exact absurd rfl h
  · exact List.cons_ne_nil _ _

theorem sound_run {state : State} {text : Text} (h : state.Sound)
    (hopen : (state.run text).stack ≠ []) : (state.run text).Sound := by
  induction text generalizing state with
  | nil => exact h
  | cons c text ih => exact ih (sound_step (@open_of_run state (c :: text) hopen) c) hopen

/-- A text that leaves something open is read without its end being found. -/
theorem ends_run {state : State} {text : Text} (h : state.Sound)
    (hopen : (state.run text).stack ≠ []) (rest : Text) :
    ends state.stack (state.held.text ++ (text ++ rest)) =
      ends (state.run text).stack ((state.run text).held.text ++ rest) := by
  induction text generalizing state with
  | nil => rfl
  | cons c text ih =>
    have hstate := @open_of_run state (c :: text) hopen
    rw [List.cons_append, ends_step h hstate, ih (sound_step hstate c) hopen, run_cons]

/-- A text in which everything is closed leaves at least what is behind it. -/
theorem length_of_run {state : State} {text : Text} (h : state.Sound) (hopen : state.stack ≠ [])
    (hdone : (state.run text).stack = []) (rest : Text) :
    rest.length ≤ (ends state.stack (state.held.text ++ (text ++ rest))).1.length := by
  induction text generalizing state with
  | nil => exact absurd hdone hopen
  | cons c text ih =>
    rw [List.cons_append, ends_step h hopen]
    by_cases hnext : (state.step c).stack = []
    · rw [eq_done (sound_step hopen c) hnext, Held.text, List.nil_append, ends_done,
        List.length_append]
      exact Nat.le_add_left _ _
    · exact ih (sound_step hopen c) hnext hdone

end State

/-! ## What the reading is in the middle of -/

namespace State

/-- The quotes that strings wait for. -/
def Marked (state : State) : Prop :=
  ∀ mark, .quote mark ∈ state.stack → mark = '"' ∨ mark = '\''

/-- The string that everything else stands in. -/
def Bottom (state : State) : Prop :=
  state.stack = [] ∨ state.stack.getLast? = some (.quote '"')

theorem Marked.step {state : State} (h : state.Marked) (c : Char) : (state.step c).Marked := by
  -- Only a quote inside of braces opens another string, and only by one of the two marks.
  rcases state with ⟨_ | ⟨own | depth, outer⟩, held⟩
  · exact h
  · have houter : ∀ mark, .quote mark ∈ outer → mark = '"' ∨ mark = '\'' :=
      fun mark hmark => h mark (List.mem_cons_of_mem _ hmark)
    rw [step_quote]
    split
    · exact h
    split
    · intro mark hmark
      exact h mark ((List.mem_cons.mp hmark).resolve_left nofun)
    split
    · exact h
    split
    · exact h
    split
    · exact houter
    · exact h
  · have houter : ∀ mark, .quote mark ∈ outer → mark = '"' ∨ mark = '\'' :=
      fun mark hmark => h mark (List.mem_cons_of_mem _ hmark)
    have hbraces (depth : Nat) : Marked ⟨.braces depth :: outer, .nothing⟩ :=
      fun mark hmark => houter mark ((List.mem_cons.mp hmark).resolve_left nofun)
    rw [step_braces]
    split
    · exact hbraces _
    split
    · split
      · exact houter
      · exact hbraces _
    split
    · rename_i hquote
      intro mark hmark
      rcases List.mem_cons.mp hmark with heq | hmark
      · rw [Open.quote.inj heq]
        exact hquote.symm
      · exact hbraces _ mark hmark
    · exact hbraces _

/-- Behind a percent sign another one changes nothing. -/
theorem Marked.step_percent {state : State} (h : state.Marked) :
    (state.step '%').step '%' = state.step '%' := by
  rcases state with ⟨_ | ⟨own | depth, outer⟩, held⟩
  · rfl
  -- The sign is none that a step asks for, so the second one finds the state unchanged.
  · have hown : '%' ≠ own := by
      rcases h own List.mem_cons_self with rfl | rfl <;> decide
    have hstep (held : Held) : State.step ⟨.quote own :: outer, held⟩ '%' =
        ⟨.quote own :: outer, .nothing⟩ := by
      have hdollar : ¬ (held = .brace ∧ '%' = '$') := fun h => absurd h.2 (by decide)
      have hbrace : ¬ ('%' = '{' ∧ own = '"') := fun h => absurd h.1 (by decide)
      have hslash : '%' ≠ '\\' := by decide
      rw [step_quote, if_neg hdollar, if_neg hslash, if_neg hbrace, if_neg hown, ite_self]
    rw [hstep, hstep]
  · rfl

theorem Bottom.step {state : State} (h : state.Bottom) (c : Char) : (state.step c).Bottom := by
  -- What a step closes is the innermost, and what it opens stands on the others.
  rcases state with ⟨_ | ⟨own | depth, outer⟩, held⟩
  · exact h
  · have hlast := h.resolve_left (List.cons_ne_nil _ _)
    have houter : outer = [] ∨ outer.getLast? = some (.quote '"') := by
      rcases outer with _ | ⟨next, outer⟩
      · exact .inl rfl
      · exact .inr (by rw [← hlast, List.getLast?_cons_cons])
    rw [step_quote]
    split
    · exact h
    split
    · exact .inr (by rw [List.getLast?_cons_cons]; exact hlast)
    split
    · exact h
    split
    · exact h
    split
    · exact houter
    · exact h
  · have hlast := h.resolve_left (List.cons_ne_nil _ _)
    rcases outer with _ | ⟨next, outer⟩
    · exact absurd (Option.some.inj hlast) nofun
    rw [List.getLast?_cons_cons] at hlast
    have hbraces (depth : Nat) : Bottom ⟨.braces depth :: next :: outer, .nothing⟩ :=
      .inr (by rw [List.getLast?_cons_cons]; exact hlast)
    rw [step_braces]
    split
    · exact hbraces _
    split
    · split
      · exact .inr hlast
      · exact hbraces _
    split
    · exact .inr (by rw [List.getLast?_cons_cons, List.getLast?_cons_cons]; exact hlast)
    · exact hbraces _

/-- The state behind the quote that opens a string. -/
def start : State := ⟨[.quote '"'], .nothing⟩

theorem sound_start : start.Sound := trivial

theorem marked_run (text : Text) : (start.run text).Marked := by
  have hrun {state : State} (h : state.Marked) : (state.run text).Marked := by
    induction text generalizing state with
    | nil => exact h
    | cons c text ih => exact ih (h.step c)
  refine hrun fun mark hmark => .inl ?_
  exact Open.quote.inj (List.mem_singleton.mp hmark)

theorem bottom_run (text : Text) : (start.run text).Bottom := by
  have hrun {state : State} (h : state.Bottom) : (state.run text).Bottom := by
    induction text generalizing state with
    | nil => exact h
    | cons c text ih => exact ih (h.step c)
  exact hrun (.inr rfl)

/-- What is open, is closed behind something. -/
theorem length_lt_of_ends {state : State} (h : state.Sound) (hopen : state.stack ≠ [])
    {text rest : Text} (hends : ends state.stack (state.held.text ++ text) = (rest, true)) :
    rest.length < text.length := by
  -- By induction on the text: what is open is closed by a character, and not before.
  induction text generalizing state with
  | nil =>
    rw [List.append_nil] at hends
    rcases state with ⟨_ | ⟨top, outer⟩, held⟩
    · exact absurd rfl hopen
    cases held with
    | nothing =>
      rw [Held.text, ends, close] at hends
      exact absurd (congrArg Prod.snd hends) Bool.false_ne_true
    | escape =>
      rcases h with ⟨mark, _, hstack⟩
      injection hstack with htop
      rw [Held.text, htop, ends, close] at hends
      exact absurd (congrArg Prod.snd hends) Bool.false_ne_true
    | brace =>
      rcases h with ⟨_, hstack⟩
      injection hstack with htop
      rw [Held.text, htop, ends_quote (by decide) fun h => absurd h.2.2 (by
        simp only [List.head?_nil, reduceCtorEq, not_false_eq_true]),
        if_neg (by decide), ends, close] at hends
      exact absurd (congrArg Prod.snd hends) Bool.false_ne_true
  | cons c text ih =>
    rw [ends_step h hopen] at hends
    by_cases hnext : (state.step c).stack = []
    · rw [eq_done (sound_step hopen c) hnext, Held.text, List.nil_append, ends_done] at hends
      rw [← show text = rest from congrArg Prod.fst hends]
      exact Nat.lt_succ_self _
    · exact Nat.lt_succ_of_lt (ih (sound_step hopen c) hnext hends)

end State

/-! ## Texts that leave their string open -/

namespace State

/-- Just the string is open, and nothing is escaped. -/
structure Within (state : State) : Prop where
  stack : state.stack = [.quote '"']
  held : state.held ≠ .escape

theorem within_start : start.Within := ⟨rfl, nofun⟩

theorem Within.cases {state : State} (h : state.Within) :
    state = start ∨ state = ⟨[.quote '"'], .brace⟩ := by
  rcases state with ⟨stack, held⟩
  rw [show stack = [.quote '"'] from h.stack]
  cases held with
  | nothing => exact .inl rfl
  | brace => exact .inr rfl
  | escape => exact absurd rfl h.held

/-- A character that is neither escaping nor opening nor closing anything. -/
theorem Within.step {state : State} (h : state.Within) {c : Char}
    (hc : c ≠ '\\' ∧ c ≠ '"' ∧ c ≠ '$') : (state.step c).Within := by
  have hplain : (start.step c).Within := by
    rw [start, step_quote, if_neg nofun, if_neg fun h => absurd h.1 nofun, if_neg hc.1]
    split
    · exact ⟨rfl, nofun⟩
    rw [if_neg hc.2.1]
    exact within_start
  rcases h.cases with rfl | rfl
  · exact hplain
  · rw [step_brace hc.2.2, if_neg (List.cons_ne_nil _ _)]
    exact hplain

theorem Within.run {state : State} (h : state.Within) {text : Text}
    (htext : ∀ c ∈ text, c ≠ '\\' ∧ c ≠ '"' ∧ c ≠ '$') : (state.run text).Within := by
  induction text generalizing state with
  | nil => exact h
  | cons c text ih =>
    exact ih (h.step (htext c List.mem_cons_self)) fun c hc => htext c (List.mem_cons_of_mem _ hc)

/-- An escaped character. -/
theorem Within.escaped {state : State} (h : state.Within) (c : Char) :
    (state.run ['\\', c]).Within := by
  rcases h.cases with rfl | rfl <;> exact within_start

/-- Where a brace or a backslash waits, it was the last character. -/
theorem held_step {state : State} (hopen : state.stack ≠ []) (c : Char) :
    ((state.step c).held = .brace → c = '{') ∧
      ((state.step c).held = .escape → c = '\\' ∧ state.held ≠ .escape ∧
        ∃ mark outer, state.stack = .quote mark :: outer) := by
  -- A step leaves a character to wait in two of its cases only.
  rcases state with ⟨_ | ⟨mark | depth, outer⟩, held⟩
  · exact absurd rfl hopen
  · rw [step_quote]
    split
    · exact ⟨nofun, nofun⟩
    split
    · exact ⟨nofun, nofun⟩
    split
    · rename_i hescape _ hslash
      exact ⟨nofun, fun _ => ⟨hslash, hescape, mark, outer, rfl⟩⟩
    split
    · rename_i hbrace
      exact ⟨fun _ => hbrace.1, nofun⟩
    split <;> exact ⟨nofun, nofun⟩
  · rw [step_braces]
    split
    · exact ⟨nofun, nofun⟩
    split
    · exact ⟨nofun, nofun⟩
    split <;> exact ⟨nofun, nofun⟩

theorem run_concat (state : State) (text : Text) (c : Char) :
    state.run (text ++ [c]) = (state.run text).step c := run_append state text [c]

/-- The string that everything else stands in ends at its quote. -/
theorem within_of_done {state : State} {c : Char} (hopen : state.stack ≠ [])
    (hbottom : state.Bottom) (hdone : (state.step c).stack = []) : state.Within ∧ c = '"' := by
  have hlast := hbottom.resolve_left hopen
  -- Only a closing mark can close the last that is open, and braces are never the last.
  rcases state with ⟨_ | ⟨mark | depth, outer⟩, held⟩
  · exact absurd rfl hopen
  · rw [step_quote] at hdone
    split at hdone
    · exact absurd hdone (List.cons_ne_nil _ _)
    split at hdone
    · exact absurd hdone (List.cons_ne_nil _ _)
    split at hdone
    · exact absurd hdone (List.cons_ne_nil _ _)
    split at hdone
    · exact absurd hdone (List.cons_ne_nil _ _)
    split at hdone
    · rename_i hescape _ _ _ hmark
      rw [show outer = [] from hdone] at hlast ⊢
      have hquote := Open.quote.inj (Option.some.inj hlast)
      exact ⟨⟨by rw [hquote], hescape⟩, hmark.trans hquote⟩
    · exact absurd hdone (List.cons_ne_nil _ _)
  · rw [step_braces] at hdone
    split at hdone
    · exact absurd hdone (List.cons_ne_nil _ _)
    split at hdone
    · -- The braces stand in something.
      dsimp only at hdone
      split at hdone
      · rw [hdone] at hlast
        exact absurd (Option.some.inj hlast) nofun
      · exact absurd hdone (List.cons_ne_nil _ _)
    split at hdone <;> exact absurd hdone (List.cons_ne_nil _ _)

/-- In a string, whether a text ends in an escape is whether a backslash waits. -/
theorem endsInEscape_run {text : Text} {mark : Char} {outer : List Open}
    (h : (start.run text).stack = .quote mark :: outer) :
    endsInEscape text = decide ((start.run text).held = .escape) := by
  -- By induction from the end, as a backslash waits or not by the one in front of it.
  induction text using List.reverseRecOn generalizing mark outer with
  | nil => rfl
  | append_singleton text c ih =>
    rw [run_concat] at h ⊢
    rw [endsInEscape_concat]
    generalize start.run text = state at h ih ⊢
    by_cases hslash : c = '\\'
    · rw [if_pos hslash]
      rcases state with ⟨_ | ⟨own | depth, outer'⟩, held⟩
      · exact absurd h.symm (List.cons_ne_nil _ _)
      · -- A backslash waits, unless one waited in front of it.
        rw [ih rfl, hslash, step_quote]
        cases held <;> rfl
      · rw [hslash] at h
        injection h with htop
        exact absurd htop nofun
    · rw [if_neg hslash, eq_comm, decide_eq_false_iff_not]
      have hopen : state.stack ≠ [] := by
        intro hnil
        rcases state with ⟨stack, held⟩
        rw [show stack = [] from hnil] at h
        exact absurd h.symm (List.cons_ne_nil _ _)
      exact fun hheld => hslash ((held_step hopen c).2 hheld).1

end State

/-- A text between double quotes that leaves just the string open, and escapes nothing behind it. -/
def Inside (text : Text) : Prop := (State.start.run text).Within

namespace Inside

open State

variable {text more : Text}

theorem nil : Inside [] := within_start

theorem unescaped (h : Inside text) : endsInEscape text = false := by
  rw [endsInEscape_run h.stack, decide_eq_false_iff_not]
  exact h.held

/-- A quote behind such a text ends the string. -/
theorem close (h : Inside text) (after : Text) :
    close [.quote '"'] (text ++ ['"'] ++ after) = ⟨text ++ ['"'], after, true⟩ := by
  have hopen : (start.run text).stack ≠ [] := by
    rw [h.stack]
    exact List.cons_ne_nil _ _
  have hlast : (start.run text).step '"' = ⟨[], .nothing⟩ := by
    rcases h.cases with hstate | hstate <;> rw [hstate] <;> rfl
  have hends : ends [.quote '"'] (text ++ ['"'] ++ after) = (after, true) := by
    rw [List.append_assoc]
    refine (ends_run sound_start hopen (['"'] ++ after)).trans ?_
    refine (ends_step (sound_run sound_start hopen) hopen '"' after).trans ?_
    rw [hlast]
    exact ends_done after
  -- What was taken is what is not left.
  rw [ends, Prod.mk.injEq] at hends
  have hsplits : (Quoted.close [.quote '"'] (text ++ ['"'] ++ after)).taken ++ _ = _ :=
    splits_close _ _
  rcases hcut : Quoted.close [.quote '"'] (text ++ ['"'] ++ after) with ⟨taken, rest, closed⟩
  rw [hcut] at hends hsplits
  have htaken : taken ++ rest = text ++ ['"'] ++ after := hsplits
  rw [show rest = after from hends.1] at htaken ⊢
  rw [show closed = true from hends.2, List.append_cancel_right htaken]

/-- What was read up to a quote that ends the string is such a text. -/
theorem of_close {after : Text}
    (h : Quoted.close [.quote '"'] (text ++ after) = ⟨text, after, true⟩) :
    ∃ inner, text = inner ++ ['"'] ∧ Inside inner := by
  have hends : ends [.quote '"'] (text ++ after) = (after, true) := by rw [ends, h]
  -- Were something still open behind it, something would be taken from what is left.
  have hdone : (start.run text).stack = [] := by
    refine Classical.byContradiction fun hopen => ?_
    have hrest := (ends_run sound_start hopen after).symm.trans hends
    exact Nat.lt_irrefl _ (length_lt_of_ends (sound_run sound_start hopen) hopen hrest)
  rcases List.eq_nil_or_concat text with rfl | ⟨inner, c, rfl⟩
  · exact absurd hdone (List.cons_ne_nil _ _)
  rw [List.concat_eq_append] at *
  rw [run_concat] at hdone
  have hopen : (start.run inner).stack ≠ [] := by
    intro hnil
    have hlength := length_of_run sound_start (List.cons_ne_nil _ _) hnil (c :: after)
    rw [show start.held.text ++ (inner ++ c :: after) = inner ++ [c] ++ after by
      rw [List.append_assoc]; rfl] at hlength
    rw [show ends start.stack _ = _ from hends] at hlength
    exact absurd hlength (Nat.not_succ_le_self _)
  rcases within_of_done hopen (bottom_run inner) hdone with ⟨hwithin, rfl⟩
  exact ⟨inner, rfl, hwithin⟩

/-- Doubled percent signs are read as single ones. -/
theorem escapePercent (h : Inside text) : Inside (Format.escapePercent text) := by
  -- Twice the sign does what it does once.
  have hrun {state : State} (hmarked : state.Marked) :
      state.run (Format.escapePercent text) = state.run text := by
    clear h
    induction text generalizing state with
    | nil => rfl
    | cons c text ih =>
      rw [Format.escapePercent, List.flatMap_cons, run_append, run_cons]
      by_cases hc : c = '%'
      · rw [if_pos hc, hc, run_cons, run_cons, run_nil, hmarked.step_percent]
        exact ih (hmarked.step '%')
      · rw [if_neg hc, run_cons, run_nil]
        exact ih (hmarked.step c)
  have hstart : start.Marked := marked_run []
  rw [Inside, hrun hstart]
  exact h

theorem encodeDouble (text : Text) : Inside (Escape.encodeDouble text) := by
  have hrun {state : State} (h : state.Within) : (state.run (Escape.encodeDouble text)).Within := by
    induction text generalizing state with
    | nil => exact h
    | cons c text ih =>
      rw [Escape.encodeDouble, Escape.escape]
      split
      · exact ih (h.escaped c)
      · rename_i hplain
        rw [Bool.not_eq_true, Bool.or_eq_false_iff, Bool.or_eq_false_iff, beq_eq_false_iff_ne,
          beq_eq_false_iff_ne, beq_eq_false_iff_ne] at hplain
        exact ih (h.step ⟨hplain.1.1, hplain.1.2, hplain.2⟩)
  exact hrun within_start

theorem append (h : Inside text) (hmore : ∀ c ∈ more, c ≠ '\\' ∧ c ≠ '"' ∧ c ≠ '$') :
    Inside (text ++ more) := by
  rw [Inside, run_append]
  exact Within.run h hmore

end Inside

/-! ## Pieces that are joined -/

namespace State

/-- A character that means nothing in a string or between braces. -/
def IsIdle (c : Char) : Prop := c ∉ ['\\', '"', '\'', '{', '}', '$']

theorem Marked.run_idle {stack : List Open} {text : Text} (h : Marked ⟨stack, .nothing⟩)
    (htext : ∀ c ∈ text, IsIdle c) : run ⟨stack, .nothing⟩ text = ⟨stack, .nothing⟩ := by
  induction text with
  | nil => rfl
  | cons c text ih =>
    have hc := htext c List.mem_cons_self
    simp only [IsIdle, List.mem_cons, List.not_mem_nil, or_false, not_or] at hc
    rcases hc with ⟨hslash, hdouble, hsingle, hopens, hcloses, _⟩
    -- An idle character is none that a step asks for.
    have hstep : State.step ⟨stack, .nothing⟩ c = ⟨stack, .nothing⟩ := by
      rcases stack with _ | ⟨mark | depth, outer⟩
      · rfl
      · have hmark : c ≠ mark := by
          rcases h mark List.mem_cons_self with rfl | rfl
          · exact hdouble
          · exact hsingle
        rw [step_quote, if_neg Held.noConfusion, if_neg fun h => Held.noConfusion h.1, if_neg hslash,
          if_neg fun h => hopens h.1, if_neg hmark]
      · rw [step_braces, if_neg hopens, if_neg hcloses, if_neg fun h => h.elim hsingle hdouble]
    rw [run_cons, hstep]
    exact ih fun c hc => htext c (List.mem_cons_of_mem _ hc)

/-- A dollar sign in a string is read in the string, with no brace in front of it. -/
theorem Marked.of_dollar {state : State} (h : state.Marked)
    (hstack : (state.step '$').stack = [.quote '"']) :
    state.stack = [.quote '"'] ∧ state.held ≠ .brace := by
  -- A dollar sign opens braces where a brace waits for it, and nothing elsewhere.
  rcases state with ⟨_ | ⟨mark | depth, outer⟩, held⟩
  · exact absurd hstack.symm (List.cons_ne_nil _ _)
  · have hmark : '$' ≠ mark := by
      rcases h mark List.mem_cons_self with rfl | rfl <;> decide
    rw [step_quote] at hstack
    cases held with
    | brace =>
      injection hstack with htop
      exact absurd htop nofun
    | escape => exact ⟨hstack, nofun⟩
    | nothing =>
      rw [if_neg nofun, if_neg fun h => absurd h.1 nofun, if_neg (by decide),
        if_neg fun h => absurd h.1 (by decide), if_neg hmark] at hstack
      exact ⟨hstack, nofun⟩
  · injection hstack with htop
    exact absurd htop nofun

/-- A brace in a string is read in the string. -/
theorem Marked.of_brace {state : State} (h : state.Marked)
    (hstack : (state.step '{').stack = [.quote '"']) : state.stack = [.quote '"'] := by
  rcases state with ⟨_ | ⟨mark | depth, outer⟩, held⟩
  · exact absurd hstack.symm (List.cons_ne_nil _ _)
  · have hmark : '{' ≠ mark := by
      rcases h mark List.mem_cons_self with rfl | rfl <;> decide
    rw [step_quote] at hstack
    split at hstack
    · exact hstack
    rw [if_neg fun h => absurd h.2 (by decide), if_neg (by decide)] at hstack
    split at hstack <;> exact hstack
  · injection hstack with htop
    exact absurd htop nofun

end State

/-- A variable that is split off the end of a text is idle behind its dollar sign. -/
theorem variableAtEnd?_eq_some {out before whole : Text}
    (h : Join.variableAtEnd? out = some (before, whole)) :
    ∃ code, whole = '$' :: code ∧ out = before ++ whole ∧ endsInEscape before = false ∧
      ∀ c ∈ code, State.IsIdle c := by
  have hcontinue {c : Char} (hc : isIdentContinue c = true) : State.IsIdle c := by
    intro hmem
    simp only [List.mem_cons, List.not_mem_nil, or_false] at hmem
    rcases hmem with rfl | rfl | rfl | rfl | rfl | rfl <;> exact absurd hc (by decide)
  have hname {name : Text} (hname : isName name = true) : ∀ c ∈ name, State.IsIdle c := by
    rw [isName, Bool.and_eq_true] at hname
    exact fun c hc => hcontinue (List.all_eq_true.mp hname.2 c hc)
  -- Neither names nor arrows hold a character that a string stops at.
  have harrows : ∀ arrow ∈ Join.arrows, ∀ c ∈ arrow, State.IsIdle c := by
    simp [Join.arrows, State.IsIdle]
  rw [Join.variableAtEnd?] at h
  split at h
  · rename_i parts hproperty
    rw [Option.some.injEq] at h
    subst h
    rcases Join.propertyAtEnd?_eq_some hproperty with
      ⟨name, arrow, rfl, hout, hisName, hbefore, harrow, _⟩
    refine ⟨_, rfl, hout, hbefore, fun c hc => ?_⟩
    rw [List.mem_append, List.mem_append] at hc
    rcases hc with hc | hc | hc
    · exact hname hisName c hc
    · exact harrows arrow harrow c hc
    · exact hcontinue (List.all_eq_true.mp (all_takeEndWhile _ _) c hc)
  · rcases Join.nameAtEnd?_eq_some h with ⟨name, rfl, hout, hisName, hbefore⟩
    exact ⟨name, rfl, hout, hbefore, hname hisName⟩

namespace Inside

open State

variable {text more out piece : Text} {first : Char}

/-- In front of a dollar sign that is not escaped and has nothing but idle characters behind it,
    nothing waits. -/
theorem eq_start {front more : Text} (h : Inside (front ++ '$' :: more))
    (hfront : endsInEscape front = false) (hmore : ∀ c ∈ more, IsIdle c) :
    start.run front = start := by
  have hmarked := marked_run front
  have hwithin : (((start.run front).step '$').run more).Within := by
    rw [← run_cons, ← run_append]
    exact h
  have hopen : (start.run front).stack ≠ [] := by
    refine @open_of_run _ ('$' :: more) ?_
    rw [run_cons, hwithin.stack]
    exact List.cons_ne_nil _ _
  -- The dollar sign waits for nothing, and what is behind it changes nothing.
  have hstep : (start.run front).step '$' = ⟨((start.run front).step '$').stack, .nothing⟩ := by
    rcases hstate : (start.run front).step '$' with ⟨stack, held⟩
    have hheld := held_step hopen '$'
    rw [hstate] at hheld
    cases held with
    | nothing => rfl
    | brace => exact absurd (hheld.1 rfl) (by decide)
    | escape => exact absurd (hheld.2 rfl).1 (by decide)
  have hmarked' := hmarked.step '$'
  rw [hstep] at hwithin hmarked'
  rw [hmarked'.run_idle hmore] at hwithin
  rcases hmarked.of_dollar hwithin.stack with ⟨hstack, hbrace⟩
  have hescape := endsInEscape_run hstack
  rw [hfront, eq_comm, decide_eq_false_iff_not] at hescape
  rcases Within.cases ⟨hstack, hescape⟩ with hstate | hstate
  · exact hstate
  · rw [hstate] at hbrace
    exact absurd rfl hbrace

/-- The left piece is changed to one that leaves the string open too, without a brace that the
    right piece goes on with. -/
theorem guard (h : Inside out) :
    Inside (Join.guard out first piece) ∧
      ((start.run (Join.guard out first piece)).held = .brace → first ≠ '$') := by
  have hstart {text : Text} (hrun : start.run text = start) :
      Inside text ∧ ((start.run text).held = .brace → first ≠ '$') := by
    rw [Inside, hrun]
    exact ⟨within_start, nofun⟩
  rw [Join.guard]
  split
  · -- A lone dollar sign is escaped.
    rename_i hdollar
    rw [Bool.and_eq_true, Bool.and_eq_true, beq_iff_eq, Bool.not_eq_true'] at hdollar
    have hout := eq_concat_of_getLast? hdollar.1.1
    rw [hout] at h
    have hfront := eq_start h hdollar.1.2 fun c hc => absurd hc List.not_mem_nil
    refine hstart ?_
    rw [run_append, hfront]
    rfl
  rename_i hdollar
  split
  · -- A lone brace is written by its number, also behind a backslash.
    rename_i hbrace
    rw [Bool.and_eq_true, beq_iff_eq, beq_iff_eq] at hbrace
    have hout := eq_concat_of_getLast? hbrace.1
    rw [hout, Inside, run_concat] at h
    have hstack := (marked_run out.dropLast).of_brace h.stack
    refine hstart ?_
    rw [run_append]
    rcases hstate : start.run out.dropLast with ⟨stack, held⟩
    rw [hstate] at hstack
    rw [show stack = [.quote '"'] from hstack]
    cases held <;> rfl
  rename_i hbrace
  -- Where a brace waits at the end, the right piece does not begin with a dollar sign.
  have hplain : Inside out ∧ ((start.run out).held = .brace → first ≠ '$') := by
    refine ⟨h, fun hheld hfirst => hbrace ?_⟩
    rw [Bool.and_eq_true, beq_iff_eq, beq_iff_eq]
    refine ⟨?_, hfirst⟩
    rcases List.eq_nil_or_concat out with rfl | ⟨front, c, rfl⟩
    · exact absurd hheld nofun
    · rw [List.concat_eq_append] at h hheld ⊢
      rw [Inside, run_concat] at h
      rw [run_concat] at hheld
      have hopen : (start.run front).stack ≠ [] := by
        refine @open_of_run _ [c] ?_
        rw [run_cons, run_nil, h.stack]
        exact List.cons_ne_nil _ _
      rw [List.getLast?_concat, (held_step hopen c).1 hheld]
  split
  · split
    -- What is written in braces is closed again, so the string is left open as it was.
    · rename_i before name hvariable
      rcases variableAtEnd?_eq_some hvariable with ⟨code, rfl, rfl, hbefore, hidle⟩
      have hfront := eq_start h hbefore hidle
      have hmarked : Marked ⟨[.braces 1, .quote '"'], .nothing⟩ := (marked_run ['{', '$'])
      refine hstart ?_
      rw [run_append, run_append, hfront]
      show (run ⟨[.braces 1, .quote '"'], .nothing⟩ code).run ['}'] = start
      rw [hmarked.run_idle hidle]
      rfl
    · exact hplain
  · exact hplain

/-- Two pieces that leave their string open do so when they are joined. -/
theorem push (h : Inside out) (hpiece : Inside piece) : Inside (Join.push out piece) := by
  rcases piece with _ | ⟨first, piece⟩
  · exact h
  rcases @guard out (first :: piece) first h with ⟨hguard, hbrace⟩
  rw [Join.push, Inside, run_append]
  rcases Within.cases hguard with hstate | hstate
  · rw [hstate]
    exact hpiece
  · -- The brace that waits does not get its dollar sign.
    rw [hstate] at hbrace ⊢
    rw [run_cons, step_brace (hbrace rfl), if_neg (List.cons_ne_nil _ _)]
    exact hpiece

end Inside

end Quoted

end PhpAssist

import PhpAssist.Proofs.Accounting
import PhpAssist.Proofs.Derivation

/-!
# Reading without complaint

A parse that reports nothing has put no token into an error node and has found every token that it
asked for. `Takes` and `Forms` say that a stretch of a parse was of this sort, and which shapes it
read. They are `Reads` and `Makes` with nothing reported, and compose in the same way.

Diagnostics are only ever added. So when a stretch of a parse reports nothing, then no part of it
does, and what is known of the whole is known of each of its parts.

## Main definitions

* `Grammar.State.words`, `Grammar.State.look`: The words ahead, and the first of them.
* `Grammar.Silent`: Nothing was reported between two states.
* `Grammar.Takes`: A row of shapes was read, and nothing was reported.
* `Grammar.Forms`: A node of a shape was completed, and nothing was reported.

## Theorems

* `Grammar.Silent.split`: The parts of a silent stretch are silent.
* `Grammar.Silent.expect`: A token that is asked for silently is there.
-/

namespace PhpAssist

namespace Grammar

namespace State

/-- The words ahead. -/
def words (state : State) : List Word := state.ahead.map Token.word

/-- The word ahead, if the text has not ended. -/
def look (state : State) : Option Word := state.words.head?

theorem kind_eq_aheadKind (state : State) : state.kind = aheadKind state.look := by
  rw [kind, look, words]
  rcases state.ahead with _ | ⟨tok, rest⟩ <;> rfl

theorem aheadKind_ne {state : State} {kind : Kind} (h : ¬ state.isAt kind = true) :
    aheadKind state.look ≠ kind := by
  rw [isAt, kind_eq_aheadKind, beq_iff_eq] at h
  exact h

theorem words_length (state : State) : state.words.length = state.ahead.length := by
  rw [words, List.length_map]

variable {state : State} {word : Word} {rest : List Word}

theorem look_of_words (h : state.words = word :: rest) : state.look = some word := by
  rw [look, h, List.head?_cons]

theorem kind_of_words (h : state.words = word :: rest) : state.kind = word.kind := by
  rw [kind_eq_aheadKind, look_of_words h]
  rfl

theorem kind_of_words_nil (h : state.words = []) : state.kind = .endOfFile := by
  rw [kind_eq_aheadKind, look, h]
  rfl

theorem look_of_words_nil (h : state.words = []) : state.look = none := by
  rw [look, h, List.head?_nil]

/-- The words ahead begin with one when the kind ahead is not that of the end. -/
theorem words_of_kind {kind : Kind} (h : state.kind = kind) (hkind : kind ≠ .endOfFile) :
    ∃ word rest, state.words = word :: rest ∧ word.kind = kind := by
  rcases hwords : state.words with _ | ⟨word, rest⟩
  · exact absurd (h.symm.trans (kind_of_words_nil hwords)) hkind
  · exact ⟨word, rest, rfl, (kind_of_words hwords).symm.trans h⟩

theorem text_of_words (h : state.words = word :: rest) : state.next.text = word.text := by
  rw [words] at h
  rw [next]
  rcases hahead : state.ahead with _ | ⟨tok, more⟩
  · rw [hahead] at h
    exact absurd h (by simp only [List.map_nil, reduceCtorEq, not_false_eq_true])
  · rw [hahead, List.map_cons] at h
    injection h with h _
    rw [← h]
    rfl

theorem isAt_of_words (h : state.words = word :: rest) (kind : Kind) :
    state.isAt kind = (word.kind == kind) := by
  rw [isAt, kind_of_words h]

theorem isAt_of_kind (h : state.words = word :: rest) {kind : Kind} (hkind : word.kind = kind) :
    state.isAt kind = true := by
  rw [isAt_of_words h, hkind, beq_self_eq_true]

theorem isAtOneOf_of_words (h : state.words = word :: rest) (kinds : KindSet) :
    state.isAtOneOf kinds = kinds.contains word.kind := by
  rw [isAtOneOf, kind_of_words h]

theorem isAtText_operator (state : State) (spelling : String) :
    state.isAtText .operator spelling = state.look.any (·.isText .operator spelling) := by
  rw [isAtText]
  rcases hwords : state.words with _ | ⟨word, rest⟩
  · rw [look_of_words_nil hwords, isAt, kind_of_words_nil hwords]
    rfl
  · rw [look_of_words hwords, isAt_of_words hwords, text_of_words hwords]
    rfl

end State

/-- Nothing was reported between two states. -/
def Silent (a b : State) : Prop := b.diagnostics = a.diagnostics

/-- A row of shapes was read between two states, and nothing was reported. -/
structure Takes (a b : State) (row : List Shape) : Prop where
  reads : ∃ trees, Reads a b trees ∧ Tree.shapesOf trees = row
  silent : Silent a b
  stalled : b.stalled = a.stalled

/-- A node of a shape was completed between two states, and nothing was reported. -/
structure Forms (a : State) (completed : Completed) (b : State) (shape : Shape) : Prop where
  makes : ∃ children, Makes a completed b children ∧
    shape = .node completed.kind (Tree.shapesOf children)
  silent : Silent a b
  stalled : b.stalled = a.stalled

namespace Silent

variable {a b c : State}

/-- A part of a silent stretch is silent, and so is what comes behind it. -/
theorem of_suffix (h : Silent a c) (hleft : a.diagnostics <:+ b.diagnostics)
    (hright : b.diagnostics <:+ c.diagnostics) : Silent a b ∧ Silent b c := by
  have hlength : c.diagnostics.length = a.diagnostics.length := congrArg List.length h
  have hle := hright.length_le
  have hleft' : a.diagnostics = b.diagnostics := hleft.eq_of_length_le (by omega)
  exact ⟨hleft'.symm, h.trans hleft'⟩

theorem split (h : Silent a c) (hleft : Accounted a b) (hright : Accounted b c) :
    Silent a b ∧ Silent b c := by
  rcases hleft with ⟨_, hleft⟩
  rcases hright with ⟨_, hright⟩
  exact h.of_suffix hleft.diagnostics hright.diagnostics

/-- A report is not silent. -/
theorem not_cons {diagnostic : Diagnostic} (h : c.diagnostics = diagnostic :: a.diagnostics) :
    ¬ Silent a c := by
  intro hsilent
  have hlength := congrArg List.length (h.symm.trans hsilent)
  rw [List.length_cons] at hlength
  omega

theorem not_report {message : String} (hright : Accounted (a.report message) c) : ¬ Silent a c := by
  intro h
  exact not_cons rfl (h.split (.report a message) hright).1

theorem not_reject {message : String} (hright : Accounted (a.reject message) c) : ¬ Silent a c := by
  intro h
  have hreject := (h.split (.reject a message) hright).1
  exact not_report ((Accounted.bump _).trans (.refl _)) (show Silent a.start
    (a.start.report message).bump from hreject)

end Silent

namespace Takes

variable {a b c : State} {row more : List Shape}

theorem refl (a : State) : Takes a a [] := ⟨⟨[], .refl a, rfl⟩, rfl, rfl⟩

theorem trans (h : Takes a b row) (hmore : Takes b c more) : Takes a c (row ++ more) := by
  rcases h.reads with ⟨trees, hreads, hrow⟩
  rcases hmore.reads with ⟨trees', hreads', hmorerow⟩
  refine ⟨⟨trees ++ trees', hreads.trans hreads', ?_⟩, hmore.silent.trans h.silent,
    hmore.stalled.trans h.stalled⟩
  rw [Tree.shapesOf_append, hrow, hmorerow]

theorem words (h : Takes a b row) : a.words = Shape.wordsOf row ++ b.words := by
  rcases h.reads with ⟨trees, hreads, hrow⟩
  rw [State.words, hreads.ahead, List.map_append, ← hrow, Tree.wordsOf_shapesOf, State.words]

theorem length (h : Takes a b row) :
    a.ahead.length = (Shape.wordsOf row).length + b.ahead.length := by
  rw [← State.words_length, h.words, List.length_append, State.words_length]

theorem length_word {word : Word} (h : Takes a b [.word word]) :
    a.ahead.length = b.ahead.length + 1 := by
  rw [h.length, Nat.add_comm]
  rfl

/-- The word ahead is read. -/
theorem bump {word : Word} {rest : List Word} (h : a.words = word :: rest) :
    Takes a a.bump [.word word] ∧ a.bump.words = rest := by
  rcases hahead : a.ahead with _ | ⟨tok, more⟩
  · rw [State.words, hahead] at h
    exact absurd h (by simp only [List.map_nil, reduceCtorEq, not_false_eq_true])
  · rw [State.words, hahead, List.map_cons] at h
    injection h with hword hrest
    refine ⟨⟨⟨[.token tok], .bump hahead, ?_⟩, ?_, ?_⟩, ?_⟩
    · rw [← hword]
      rfl
    all_goals rw [State.bump, hahead]
    · exact rfl
    · exact hrest

/-- A node is closed around what was read since it started. -/
theorem close {kind : Kind} (hkind : kind ≠ .tombstone) (h : Takes a.start b row) :
    Forms a ⟨a.mark, kind⟩ (b.close a.mark kind) (.node kind row) := by
  rcases h.reads with ⟨trees, hreads, hrow⟩
  exact ⟨⟨trees, hreads.close hkind, by rw [hrow]⟩, h.silent, h.stalled⟩

end Takes

namespace Forms

variable {a b c : State} {completed : Completed} {shape : Shape}

theorem kind (h : Forms a completed b shape) : shape.kind = completed.kind := by
  rcases h.makes with ⟨children, _, hshape⟩
  rw [hshape]
  rfl

theorem takes (h : Forms a completed b shape) : Takes a b [shape] := by
  rcases h.makes with ⟨children, hmakes, hshape⟩
  exact ⟨⟨_, hmakes.reads, by rw [hshape]; rfl⟩, h.silent, h.stalled⟩

/-- A node is closed around one that was completed and what was read behind it. -/
theorem around {kind : Kind} {row : List Shape} (hkind : kind ≠ .tombstone)
    (h : Forms a completed b shape) (hrow : Takes (b.precede completed) c row) :
    Forms a ⟨b.mark, kind⟩ (c.close b.mark kind) (.node kind (shape :: row)) := by
  rcases h.makes with ⟨children, hmakes, hshape⟩
  rcases hrow.reads with ⟨trees, hreads, htrees⟩
  refine ⟨⟨_, hmakes.around hkind hreads, ?_⟩, ?_, ?_⟩
  · rw [Tree.shapesOf, htrees, hshape]
    rfl
  · exact hrow.silent.trans h.silent
  · exact hrow.stalled.trans h.stalled

theorem outcome (h : Forms a completed b shape) : Outcome a (some completed, b) := by
  rcases h.makes with ⟨children, hmakes, _⟩
  exact ⟨children, hmakes⟩

end Forms

namespace Outcome

variable {a b : State} {completed : Completed}

/-- A node might as well have been begun when all that was reported had been reported. -/
theorem resumed (h : Outcome a (some completed, b)) :
    Outcome { a with diagnostics := b.diagnostics } (some completed, b) := by
  rcases h with ⟨children, hmakes⟩
  exact ⟨children, ⟨hmakes.ahead, hmakes.last, List.suffix_refl _, hmakes.stalled⟩, hmakes.log⟩

/-- A loop behind a node only adds to what was reported. -/
theorem suffix_operators (h : Outcome a (some completed, b)) (allowance least : Nat) :
    b.diagnostics <:+ (operators allowance least completed b).2.diagnostics := by
  rcases (exprRules allowance).operators least _ _ _ h.resumed with ⟨_, hafter⟩
  exact hafter.diagnostics

theorem suffix_postfixes (h : Outcome a (some completed, b)) (allowance : Nat) :
    b.diagnostics <:+ (postfixes allowance completed b).2.diagnostics := by
  rcases (exprRules allowance).postfixes _ _ _ h.resumed with ⟨_, hafter⟩
  exact hafter.diagnostics

theorem suffix (h : Outcome a (some completed, b)) : a.diagnostics <:+ b.diagnostics := by
  rcases h with ⟨_, hmakes⟩
  exact hmakes.diagnostics

end Outcome

/-- A token that is asked for and silently so is there, and is read. -/
theorem Silent.expect {a : State} {kind : Kind} (hkind : kind ≠ .endOfFile)
    (h : Silent a (a.expect kind)) :
    ∃ word, word.kind = kind ∧ a.look = some word ∧ Takes a (a.expect kind) [.word word] := by
  by_cases hat : a.isAt kind
  · rcases State.words_of_kind (beq_iff_eq.mp hat) hkind with ⟨word, rest, hwords, hword⟩
    refine ⟨word, hword, State.look_of_words hwords, ?_⟩
    rw [State.expect, if_pos hat]
    exact (Takes.bump hwords).1
  · rw [State.expect, if_neg hat] at h
    exact absurd h (Silent.not_cons rfl)

/-- A token that is there is read when it is asked for. -/
theorem Takes.expect {a : State} {word : Word} {rest : List Word} (h : a.words = word :: rest) :
    Takes a (a.expect word.kind) [.word word] := by
  have hat : a.isAt word.kind = true := by rw [State.isAt_of_words h, beq_self_eq_true]
  rw [State.expect, if_pos hat]
  exact (bump h).1

end Grammar

end PhpAssist

import PhpAssist.Proofs.Lossless
import PhpAssist.Proofs.StmtCompleteness

/-!
# Texts without diagnostics

A text is read without a diagnostic exactly when its tokens are found without an error and the
grammar derives them. The tree is then the derived one, with the end of the text behind it. A
parse that never ends is not among these: it is only ever caused by a parameter that is missing,
which is reported.

## Main definitions

* `Grammar.DerivesFile`: The shapes of a file, its opening tag included.
* `Lexing.Spells`: A text is read into words without an error.
* `Parse.Clean`: A parse without diagnostics, and the shapes under its root.

## Theorems

* `Parse.clean_file_of_diagnostics`, `Parse.clean_fragment_of_diagnostics`: What is read without a
  diagnostic is derived.
* `Parse.clean_file`, `Parse.clean_fragment`: What is derived is read without a diagnostic.
-/

namespace PhpAssist

namespace Grammar

/-- The shapes of a file: statements up to the end, with an opening tag in front of them or not. -/
inductive DerivesFile : List Shape → Prop
  | bare {row : List Shape} (hrow : DerivesStmt .stmts none row) : DerivesFile row
  | tagged {tag : Word} {row : List Shape} (htag : tag.kind = .openTag)
      (hrow : DerivesStmt .stmts none row) : DerivesFile (.word tag :: row)

end Grammar

/-- A text is read into words, and there is no error in any of them. -/
structure Lexing.Spells (text : Text) (words : List Word) : Prop where
  errors : (Lexing.of text).errors = []
  words : (Lexing.of text).tokens.map Token.word = words

namespace Parse

/-- A parse of a text came to its end without a diagnostic. Under its root is a row of shapes, and
    behind it the end of the text. -/
structure Clean (text : Text) (parse : Parse) (row : List Shape) : Prop where
  errors : (Lexing.of text).errors = []
  diagnostics : parse.diagnostics = []
  finished : parse.finished = true
  root : ∃ trees, parse.root = .root .sourceFile (trees ++ [.token (Lexing.of text).last]) ∧
    Tree.tokensOf trees = (Lexing.of text).tokens ∧ Tree.shapesOf trees = row

theorem Clean.spells {text : Text} {parse : Parse} {row : List Shape} (h : Clean text parse row) :
    Lexing.Spells text (Shape.wordsOf row) := by
  rcases h.root with ⟨trees, _, htokens, hrow⟩
  exact ⟨h.errors, by rw [← hrow, Tree.wordsOf_shapesOf, htokens]⟩

theorem Clean.hasErrors {text : Text} {parse : Parse} {row : List Shape}
    (h : Clean text parse row) : parse.hasErrors = false := by
  rw [Parse.hasErrors, h.diagnostics]
  rfl

section Rules

variable {rule : Nat → Grammar.State → Grammar.State} {text : Text}

theorem inOrder_eq_nil {diagnostics : List Diagnostic} :
    Diagnostic.inOrder diagnostics = [] ↔ diagnostics = [] := by
  rw [Diagnostic.inOrder]
  refine ⟨fun h => ?_, fun h => by rw [h]; rfl⟩
  have hperm := StableSort.sort_perm (fun a b : Diagnostic => a.span.start ≤ b.span.start) diagnostics
  rw [h] at hperm
  exact hperm.symm.eq_nil

/-- Without a diagnostic there is no error in a token, and the rule has reported nothing. -/
theorem silent_of_diagnostics (h : (withRule rule text).diagnostics = []) :
    (Lexing.of text).errors = [] ∧ (run rule text).diagnostics = [] := by
  rw [withRule, inOrder_eq_nil, List.append_eq_nil_iff, List.reverse_eq_nil_iff] at h
  exact ⟨h.2, h.1⟩

/-- Reading the end of a text reports nothing. -/
theorem readEnd_quiet (state : Grammar.State) :
    state.readEnd.diagnostics = state.diagnostics ∧ state.readEnd.stalled = state.stalled := by
  unfold Grammar.State.readEnd
  split <;> exact ⟨rfl, rfl⟩

/-- A rule that read a row silently up to the end leaves a parse without diagnostics. -/
theorem clean_of_takes {after : Grammar.State} {row : List Shape}
    (hrun : run rule text = ending text after) (htakes : Grammar.Takes (start text).start after row)
    (hahead : after.ahead = []) (herrors : (Lexing.of text).errors = []) :
    Clean text (withRule rule text) row := by
  rcases htakes.reads with ⟨trees, hreads, hrow⟩
  have hdiagnostics : (run rule text).diagnostics = [] := by
    rw [hrun]
    exact (readEnd_quiet after).1.trans htakes.silent
  have hstalled : (run rule text).stalled = false := by
    rw [hrun]
    exact (readEnd_quiet after).2.trans htakes.stalled
  -- Neither the parser nor the scanner reported anything, and the parser ended.
  refine ⟨herrors, ?_, ?_, trees, ?_, ?_, hrow⟩
  · rw [withRule, inOrder_eq_nil, List.append_eq_nil_iff, List.reverse_eq_nil_iff]
    exact ⟨hdiagnostics, herrors⟩
  · rw [withRule]
    exact congrArg (!·) hstalled
  · rcases build_of_reads hreads hahead with ⟨_, _, _, hbuild⟩
    rw [← hrun] at hbuild
    rw [Parse.root, withRule, build, hbuild]
    rfl
  · have hall : (Lexing.of text).tokens = Tree.tokensOf trees ++ after.ahead := hreads.ahead
    rw [hall, hahead, List.append_nil]

/-- No token ahead stands for the end while statements are still to be read. -/
theorem ahead_of_takes {before : Grammar.State} {row : List Shape} {allowance : Nat}
    (htakes : Grammar.Takes (start text).start before row)
    (hends : (Grammar.stmtList .endOfFile allowance before).stalled = false) :
    (Grammar.stmtList .endOfFile allowance before).ahead = [] := by
  refine Grammar.ahead_stmtList hends fun tok htok => ?_
  rcases htakes.reads with ⟨trees, hreads, _⟩
  have hall : (Lexing.of text).tokens = Tree.tokensOf trees ++ before.ahead := hreads.ahead
  have hmem : tok ∈ (Lexing.of text).tokens := by
    rw [hall, List.mem_append]
    exact .inr htok
  exact Kind.ne_endOfFile_of_isLexeme (Lexing.isLexeme_of_mem hmem)

/-- Statements that are read silently up to the end are derived. -/
theorem derives_of_silent {before : Grammar.State} {front : List Shape}
    (htakes : Grammar.Takes (start text).start before front)
    (hsilent : Grammar.Silent before (Grammar.stmtList .endOfFile
      (allowance (Lexing.of text).tokens.length) before)) :
    ∃ row, Grammar.Takes (start text).start (Grammar.stmtList .endOfFile
        (allowance (Lexing.of text).tokens.length) before) (front ++ row) ∧
      (Grammar.stmtList .endOfFile (allowance (Lexing.of text).tokens.length) before).ahead = [] ∧
      Grammar.DerivesStmt .stmts none row := by
  have hle := htakes.length_le
  have hahead : (start text).start.ahead.length = (Lexing.of text).tokens.length := rfl
  -- The allowance is for all tokens, so it is enough for those that are left.
  have hallowance : 8 * before.ahead.length + 6 ≤ allowance (Lexing.of text).tokens.length := by
    rw [allowance]
    omega
  rcases (Grammar.soundStmtRules _).stmtList .endOfFile before hallowance hsilent with
    ⟨row, hrow, hderives⟩
  have hnone := ahead_of_takes htakes ((htakes.trans hrow).stalled)
  refine ⟨row, htakes.trans hrow, hnone, ?_⟩
  rwa [Grammar.State.look, Grammar.State.words, hnone] at hderives

/-- Statements that are derived and spelled by what is ahead are read silently up to the end. -/
theorem takes_of_derives {before : Grammar.State} {front row : List Shape}
    (htakes : Grammar.Takes (start text).start before front)
    (hwords : before.words = Shape.wordsOf row) (hrow : Grammar.DerivesStmt .stmts none row) :
    Grammar.Takes (start text).start (Grammar.stmtList .endOfFile
        (allowance (Lexing.of text).tokens.length) before) (front ++ row) ∧
      (Grammar.stmtList .endOfFile (allowance (Lexing.of text).tokens.length) before).ahead =
        [] := by
  have hle := htakes.length_le
  have hahead : (start text).start.ahead.length = (Lexing.of text).tokens.length := rfl
  have hallowance : 8 * before.ahead.length + 6 ≤ allowance (Lexing.of text).tokens.length := by
    rw [allowance]
    omega
  have hread := Grammar.complete_derivesStmt hrow .endOfFile _ before []
    (by rw [hwords, List.append_nil]) rfl rfl (.inr rfl) hallowance
  exact ⟨htakes.trans hread, ahead_of_takes htakes (htakes.trans hread).stalled⟩

end Rules

theorem start_words {text : Text} {words : List Word} (h : Lexing.Spells text words) :
    (start text).start.words = words := h.words

/-- What a file without a diagnostic is read into, the grammar derives. -/
theorem clean_file_of_diagnostics {text : Text} (h : (file text).diagnostics = []) :
    ∃ row, Grammar.DerivesFile row ∧ Clean text (file text) row := by
  rcases silent_of_diagnostics h with ⟨herrors, hquiet⟩
  have hsilent : Grammar.Silent (start text).start (Grammar.stmtList .endOfFile
      (allowance (Lexing.of text).tokens.length) ((start text).start.skip .openTag)) :=
    (readEnd_quiet _).1.symm.trans hquiet
  have hparts := hsilent.split (Grammar.Accounted.skip _ .openTag)
    ((Grammar.stmtRules _).stmtList .endOfFile _)
  rcases Grammar.Takes.skip (start text).start (show Kind.openTag ≠ .endOfFile by decide) with
    ⟨tag, htag, hskip⟩ | hskip
  · rcases derives_of_silent hskip hparts.2 with ⟨row, htakes, hahead, hderives⟩
    exact ⟨_, .tagged htag hderives, clean_of_takes rfl htakes hahead herrors⟩
  · rcases derives_of_silent hskip hparts.2 with ⟨row, htakes, hahead, hderives⟩
    exact ⟨_, .bare hderives, clean_of_takes rfl htakes hahead herrors⟩

/-- What a fragment without a diagnostic is read into, the grammar derives. -/
theorem clean_fragment_of_diagnostics {text : Text} {parse : Parse}
    (h : fragment text = .ok parse) :
    ∃ row, Grammar.DerivesStmt .stmts none row ∧ Clean text parse row := by
  rw [fragment] at h
  split at h
  · exact absurd h (by simp only [reduceCtorEq, not_false_eq_true])
  rename_i hclean
  rw [← Except.ok.inj h]
  rw [Bool.not_eq_true, hasErrors, Bool.not_eq_false', List.isEmpty_iff] at hclean
  -- Without diagnostics the run was silent, and what was taken silently is derived.
  rcases silent_of_diagnostics hclean with ⟨herrors, hquiet⟩
  have hsilent : Grammar.Silent (start text).start (Grammar.stmtList .endOfFile
      (allowance (Lexing.of text).tokens.length) (start text).start) :=
    (readEnd_quiet _).1.symm.trans hquiet
  rcases derives_of_silent (.refl _) hsilent with ⟨row, htakes, hahead, hderives⟩
  exact ⟨row, hderives, clean_of_takes rfl htakes hahead herrors⟩

/-- A file whose words the grammar derives is read without a diagnostic, and as it is derived. -/
theorem clean_file {text : Text} {row : List Shape} (hspells : Lexing.Spells text (Shape.wordsOf row))
    (h : Grammar.DerivesFile row) : Clean text (file text) row := by
  cases h with
  | bare hrow =>
    have hskip : (start text).start.skip .openTag = (start text).start := by
      rw [Grammar.State.skip, if_neg]
      rcases hwords : Shape.wordsOf row with _ | ⟨word, more⟩
      · rw [Grammar.State.isAt, Grammar.State.kind_of_words_nil ((start_words hspells).trans hwords)]
        decide
      -- No statement begins with the tag.
      · rw [Grammar.State.isAt_of_words ((start_words hspells).trans hwords), beq_iff_eq]
        cases hrow with
        | nil => exact absurd hwords (by simp only [Shape.wordsOf_nil, reduceCtorEq,
            not_false_eq_true])
        | cons hfirst _ =>
          rcases hfirst.begins.append with ⟨first, _, hfirst, hstart⟩
          rw [List.singleton_append, hwords] at hfirst
          injection hfirst with hfirst _
          rw [hfirst]
          exact Grammar.StmtStart.ne hstart rfl
    rcases takes_of_derives (.refl (start text).start) (start_words hspells) hrow with
      ⟨htakes, hahead⟩
    rw [← hskip] at hahead
    refine clean_of_takes rfl ?_ hahead hspells.errors
    rw [hskip]
    exact htakes
  | @tagged tag row htag hrow =>
    have hwords : (start text).start.words = tag :: Shape.wordsOf row := start_words hspells
    -- The tag is taken ahead of the statements.
    have hbump := Grammar.Takes.bump hwords
    have hskip : (start text).start.skip .openTag = (start text).start.bump := by
      rw [Grammar.State.skip, Grammar.State.isAt_of_words hwords, htag]
      rfl
    rw [← hskip] at hbump
    rcases takes_of_derives hbump.1 hbump.2 hrow with ⟨htakes, hahead⟩
    exact clean_of_takes rfl htakes hahead hspells.errors

/-- A fragment whose words the grammar derives is read, and as it is derived. -/
theorem clean_fragment {text : Text} {row : List Shape}
    (hspells : Lexing.Spells text (Shape.wordsOf row)) (h : Grammar.DerivesStmt .stmts none row) :
    ∃ parse, fragment text = .ok parse ∧ Clean text parse row := by
  rcases takes_of_derives (.refl (start text).start) (start_words hspells) h with ⟨htakes, hahead⟩
  have hclean : Clean text (withRule Grammar.fragment text) row :=
    clean_of_takes rfl htakes hahead hspells.errors
  refine ⟨_, ?_, hclean⟩
  rw [fragment, hclean.hasErrors, if_neg Bool.false_ne_true]

end Parse

end PhpAssist

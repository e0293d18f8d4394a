import PhpAssist.Proofs.KeptStatements
import PhpAssist.Proofs.Splicing
import PhpAssist.Proofs.TernaryRewrite
import PhpAssist.Proofs.WordSeams

/-!
# New texts without diagnostics

What an assist puts into a file is code, and it stands where code of its kind may stand. That does
not make the new text code: what is put in meets the old characters at its ends, and where a token
goes on from one in the other, other tokens are read than were written. The closing label of a
heredoc goes on with a keyword right behind the concatenation, a `<` right in front of it makes a
shift operator of the heredoc's opening, and the keyword of a condition goes on with the `do` or
`else` that stands right in front of the statement. Nothing looks at these characters.

Where no edit meets such a character, the new text of a file without diagnostics has none. For a
concatenation this is a part of what the rest of the file keeps. For a conditional only words have
to be told: the trivia in the condition that is written are new ones, but its words are those of its
shape, and in the gap of the statement they make up a file again.

## Main definitions

* `Edit.Apart`: An edit whose text does not go on with the characters around it.
* `TernaryAssignment.hoists`: What is put in front of a condition.

## Theorems

* `TernaryAssignment.diagnostics_edits`: A condition in place of a statement.
* `AssistContext.diagnostics_apply`: The new text of an assist.
* `AssistContext.diagnostics_of_seams`: New texts that are not code.
-/

namespace PhpAssist

open Text

/-- No token goes on from the text of an edit in the characters in front of it or behind it. -/
def Edit.Apart (text : Text) (edit : Edit) : Prop :=
  Text.Apart (takeBytes edit.span.start text) edit.insert ∧
    Text.Apart edit.insert (dropBytes edit.span.stop text)

instance (text : Text) (edit : Edit) : Decidable (edit.Apart text) :=
  inferInstanceAs (Decidable (_ ∧ _))

namespace TernaryAssignment

variable {text rest : Text} {found : TernaryAssignment} {context : AssistContext}

/-- What is put in front of the condition: the variable by itself, where it is declared. -/
def hoists (found : TernaryAssignment) : List Hoist :=
  if found.isDeclaration then [⟨found.target.trimmed, found.declaration none⟩] else []

theorem edits_eq (hplaceholder : context.config.placeholder = none) :
    edits context found =
      Edit.before context.parse.text found.stmt.span.start found.hoists ++
        [⟨found.stmt.span, found.replacementText⟩] := by
  rw [edits, hoists, hplaceholder]
  split <;> rfl

/-- The variable by itself is a statement. -/
theorem Fits.isStmt_of_mem (h : found.Fits (Parse.file text).root)
    (hclean : (Parse.file text).diagnostics = []) :
    ∀ hoist ∈ found.hoists, ∃ shape, hoist.IsStmt shape := by
  intro hoist hmem
  rw [hoists] at hmem
  split at hmem
  -- The one hoist of a conditional is the declaration of its target, a variable.
  · rename_i hdeclaration
    rw [isDeclaration, Bool.and_eq_true, Bool.and_eq_true, beq_iff_eq, beq_iff_eq] at hdeclaration
    have hstandalone := h.standalone found.target (by simp only [List.mem_cons, true_or, or_true])
    rcases Tree.token_of_variable hstandalone hdeclaration.1.2 with ⟨tok, htree, hvariable⟩
    rw [List.mem_singleton.mp hmem]
    refine ⟨.node .exprStmt [found.target.tree.shape, .word ⟨.semicolon, [';']⟩],
      fun look => .expr rfl (hstandalone _ (.of_kind rfl (.inl rfl))),
      ⟨tok.word, by rw [htree]; rfl, hvariable⟩, ?_⟩
    have hreads := @Hoist.reads_assignment ⟨found.target.trimmed, found.declaration none⟩ _
      (h.excerpt hclean _ List.mem_cons_self) rfl
    simpa only [Shape.words_node, Shape.wordsOf_cons, Shape.words_word, Shape.wordsOf_nil,
      List.append_nil] using hreads
  · exact absurd hmem List.not_mem_nil

/-- What the condition begins with, as a text and as words. -/
theorem exists_replacement (found : TernaryAssignment) :
    ∃ more, found.replacementText = 'i' :: 'f' :: ' ' :: '(' :: more := by
  have hpieces (condition whenTrue whenFalse : Text) : ∃ more,
      "if (".toList ++ condition ++ ") \x7b ".toList ++ whenTrue ++ " \x7d else \x7b ".toList ++
        whenFalse ++ " \x7d".toList = 'i' :: 'f' :: ' ' :: '(' :: more := by
    simp only [List.append_assoc]
    exact ⟨_, rfl⟩
  exact hpieces found.condition.unparenthesized.trimmed (found.assign found.whenTrue)
    (found.assign found.whenFalse)

theorem exists_words (found : TernaryAssignment) :
    ∃ words, found.written.words = ⟨.ifKw, "if".toList⟩ :: words := by
  rw [written, Shape.choice, Shape.words_node, Shape.wordsOf_cons, Shape.words_word]
  exact ⟨_, rfl⟩

/-- The condition is read in place of the statement. Its first token has the trivia in front of the
    statement. -/
theorem exists_tokens (hclean : (Parse.file text).diagnostics = [])
    (h : found.Fits (Parse.file text).root) {front back : List Token} {first final : Token}
    (hstands : found.stmt.Stands text rest front back first final) (hkind : first.kind ≠ .unknown)
    (hapart : Apart (front.flatMap Token.fullText ++ first.leadingText) found.replacementText) :
    ∃ (next : Token) (more : List Token), next.kind = .ifKw ∧ next.leading = first.leading ∧
      (next :: more).map Token.word = found.written.words ++ back.map Token.word ∧
      Lexes (front ++ next :: more)
        (front.flatMap Token.fullText ++ (first.leadingText ++ (found.replacementText ++
          (final.trailingText ++ (back.flatMap Token.fullText ++ rest))))) rest := by
  rcases hstands.lexes.behind hstands.final_eq with ⟨hback, htrailing⟩
  rcases spelled_replacement hclean h hback htrailing with ⟨hnone, tokens, hlexes, hwords⟩
  replace hwords : tokens.map Token.word = found.written.words ++ back.map Token.word := hwords
  rcases found.exists_words with ⟨words, hwritten⟩
  rcases tokens with _ | ⟨next, more⟩
  · rw [hwritten] at hwords
    exact absurd hwords.symm (List.cons_ne_nil _ _)
  -- What is written begins with `if`.
  have hif : next.kind = .ifKw := by
    rw [hwritten] at hwords
    exact congrArg Word.kind (List.cons.inj hwords).1
  rcases List.head?_eq_some_iff.mp hstands.first_eq with ⟨others, hothers⟩
  have hold := hstands.lexes
  rw [hothers, List.cons_append] at hold
  rcases found.exists_replacement with ⟨body, hreplacement⟩
  rw [hreplacement] at hapart hnone hlexes ⊢
  refine ⟨{ next with leading := first.leading }, more, hif, rfl, hwords, ?_⟩
  -- The tokens ahead are scanned as before: none of them runs into the keyword.
  refine hold.spliced ⟨hnone, hlexes⟩ (List.cons_ne_nil _ _) (Apart.joins_if hapart) hkind ?_
  intro tok htok hbetween old hscan
  rcases Token.exists_append_text htok hbetween with ⟨before, htext⟩
  rw [htext] at hapart
  refine Lexer.scan_keyword ?_ hapart.of_append hscan
  exact hold.text_ne_nil tok (List.mem_append_left _ (List.mem_of_getLast? htok))

/-- With the condition in place of the statement and the variable in front of it, a file is one. -/
theorem derives_fill (hclean : (Parse.file text).diagnostics = [])
    (h : found.Fits (Parse.file text).root) {frame : Tree.Frame}
    (hframe : found.stmt.FillsFile text frame) {hoisted : List Tree}
    (hhoisted : List.Forall₂ Hoist.Becomes found.hoists hoisted) :
    Grammar.DerivesFile (frame.fillShape (Tree.shapesOf hoisted ++ [found.written])) := by
  have hstmt : ∃ row, found.stmt.tree.shape = .node .exprStmt row := ⟨_, by rw [← h.stmt]; rfl⟩
  have hreplaces : Grammar.Replaces found.stmt.tree.shape found.written := by
    rcases hstmt with ⟨row, hstmt⟩
    rw [hstmt]
    exact .condition h.derives_written
  let splice : Grammar.Splice := ⟨found.stmt.tree.shape, found.written, found.stmt.tree.shape,
    Tree.shapesOf hoisted, hreplaces, ⟨_, _, rfl⟩, Hoist.derived_hoisted hhoisted⟩
  have hedited : Grammar.EditedStmts splice (frame.fillShape [splice.anchor])
      (frame.fillShape (Tree.shapesOf hoisted ++ [splice.new])) := by
    by_cases hdeclaration : found.isDeclaration = true
    · -- A variable is declared only among statements.
      rw [isDeclaration, Bool.and_eq_true] at hdeclaration
      rcases (Option.any_eq_true _ _).mp hdeclaration.2 with ⟨parent, hsome, hholds⟩
      refine .of_frame .replaced frame fun kind hkind => ?_
      have hparent := hframe.parent
      rw [hsome, hkind, Option.map_some, Option.getD_some, Option.some.injEq] at hparent
      rwa [hparent] at hholds
    -- Otherwise nothing is hoisted, and the statement may stand anywhere.
    · have hnone : Tree.shapesOf hoisted = [] := by
        rw [hoists, if_neg hdeclaration] at hhoisted
        cases hhoisted
        rfl
      rw [hnone]
      exact (Grammar.EditedRow.fill splice frame).stmts
  exact (Parse.derives_of_root hclean hframe.root).1.edited hedited

/-- Where the keyword of the condition does not go on with what stands in front of the statement,
    the new text is a file without diagnostics. -/
theorem diagnostics_edits (hclean : (Parse.file text).diagnostics = [])
    (hparse : context.parse = Parse.file text) (hplaceholder : context.config.placeholder = none)
    (hfound : locate context = .ok found)
    (hapart : Apart (takeBytes found.stmt.span.start text) found.replacementText) :
    (Parse.file (Change.apply ⟨edits context found⟩ text)).diagnostics = [] := by
  have h := fits_of_locate hclean hparse hfound
  rw [hparse] at h
  rcases Parse.exists_stands hclean (h.members _ List.mem_cons_self) (by rw [h.stmt]; rfl) with
    ⟨frame, rest, first, final, hframe, hstands, hkind, hends⟩
  rw [hstands.takeBytes_eq] at hapart
  rcases exists_tokens hclean h hstands hkind hapart with
    ⟨next, more, hif, hleading, hwords, hlexes⟩
  have hnext : first.leadingText = next.leadingText := by
    rw [Token.leadingText, Token.leadingText, hleading]
  rw [hnext] at hlexes
  rcases hlexes.hoisted rfl (by rw [hif]; decide) (h.isStmt_of_mem hclean)
    (Edit.isSeparator context.parse.text found.stmt.span.start) with
      ⟨hoisted, leading, hhoisted, hnew⟩
  -- The new text: what stands ahead, the hoists, the conditional, and what is behind.
  have happly : Change.apply ⟨edits context found⟩ text =
      frame.front.flatMap Token.fullText ++ (next.leadingText ++
        (found.hoists.flatMap (fun (hoist : Hoist) => hoist.text ++
            Edit.separator context.parse.text found.stmt.span.start) ++
          (found.replacementText ++
            (final.trailingText ++ (frame.back.flatMap Token.fullText ++ rest))))) := by
    have hwhole := Change.apply_before context.parse.text found.hoists
      (frame.front.flatMap Token.fullText ++ first.leadingText) [] found.stmt.trimmed
      (final.trailingText ++ (frame.back.flatMap Token.fullText ++ rest)) found.replacementText
    rw [List.append_nil, hnext] at hwhole
    rw [edits_eq hplaceholder]
    refine (congrArg (Change.apply _) hstands.text_eq).trans ?_
    rw [hstands.span_eq, hnext]
    simpa only [List.append_nil, List.nil_append, List.append_assoc] using hwhole
  rw [happly]
  -- Its tokens spell the words of a derived file, and a derived file is parsed without diagnostics.
  have hspells := hnew.spells hends
  have hwords : (frame.front ++ (Tree.tokensOf hoisted ++
      Token.startWith leading (next :: more))).map Token.word =
        Shape.wordsOf (frame.fillShape (Tree.shapesOf hoisted ++ [found.written])) := by
    rw [Tree.Frame.words_fillShape, Shape.wordsOf_append, Tree.wordsOf_shapesOf, List.map_append,
      List.map_append, Token.word_startWith, hwords, Shape.wordsOf_cons, Shape.wordsOf_nil,
      List.append_nil, List.append_assoc]
  rw [hwords] at hspells
  exact (Parse.clean_file hspells (derives_fill hclean h hframe hhoisted)).diagnostics

end TernaryAssignment

namespace ConcatChain.Rewrite

variable {context : AssistContext} {change : Change} {text : Text}

/-- The heredoc is the text of an edit. -/
theorem mem_edits (rewrite : Rewrite context change) :
    ⟨rewrite.concat.span, rewrite.heredoc⟩ ∈ change.edits := by
  have hedits := (Change.edits_of_ofEdits rewrite.edits).1
  have hmem : ⟨rewrite.concat.span, rewrite.heredoc⟩ ∈ Edit.before context.parse.text
      rewrite.anchor.span.start rewrite.resolution.hoists ++
        [⟨rewrite.concat.span, rewrite.heredoc⟩] :=
    List.mem_append_right _ (List.mem_singleton_self _)
  exact hedits ▸ (StableSort.sort_perm Edit.precedes _).mem_iff.mpr hmem

/-- A heredoc begins with `<` and ends in a character of a name. -/
theorem concat_apart (rewrite : Rewrite context change)
    (h : Edit.Apart text ⟨rewrite.concat.span, rewrite.heredoc⟩) : rewrite.concat.Apart text := by
  rcases h with ⟨hfront, hback⟩
  rcases Literal.exists_of_heredoc rewrite.closed with ⟨more, hless⟩
  refine ⟨fun hlast => ?_, ?_⟩
  · have hruns := hfront.runsInto_eq hlast (by rw [hless]; rfl)
    exact absurd hruns.symm Bool.false_ne_true
  · rcases hbehind : dropBytes rewrite.concat.span.stop text with _ | ⟨c, rest⟩
    · rfl
    have hlast : rewrite.heredoc.getLast? = some 'R' := by
      rw [(Literal.heredoc_eq rewrite.closed).1, List.getLast?_append]
      rfl
    have hruns := hback.runsInto_eq hlast (by rw [hbehind]; rfl)
    exact hruns

end ConcatChain.Rewrite

namespace AssistContext

/-- Where no edit goes on with the characters around it, the new text of a file without diagnostics
    has none, whichever assist makes it. -/
theorem diagnostics_apply {text : Text} {offset : Nat} {id : AssistId} {change : Change}
    (hclean : (Parse.file text).diagnostics = [])
    (h : AssistContext.apply ⟨Parse.file text, offset, .default⟩ id = .ok change)
    (hapart : ∀ edit ∈ change.edits, edit.Apart text) :
    (Parse.file (change.apply text)).diagnostics = [] := by
  -- Each assist has its own replacement, and both are set apart by the same hypothesis.
  cases id with
  | ternaryToIfElse =>
    rcases TernaryAssignment.found_of_apply hclean rfl h with ⟨found, hfound, hedits⟩
    have hmem : ⟨found.stmt.span, found.replacementText⟩ ∈ change.edits := by
      rw [hedits, TernaryAssignment.edits]
      exact List.mem_append_right _ (List.mem_singleton_self _)
    have hnew := TernaryAssignment.diagnostics_edits hclean rfl rfl hfound (hapart _ hmem).1
    rwa [← hedits] at hnew
  | concatToHeredoc =>
    rcases ConcatChain.rewrite_of_change h with ⟨rewrite⟩
    rcases rewrite.exists_site hclean rfl with ⟨site⟩
    rcases site.exists_keeps hclean rfl Converter.readsCalls_sprintf
      (rewrite.concat_apart (hapart _ rewrite.mem_edits)) with ⟨_, _, hkeeps⟩
    exact hkeeps.diagnostics

/-- A concatenation with a blank between it and the next keyword, and an assignment with one behind
    the keyword in front of it. -/
theorem diagnostics_apply_spaced :
    let loop := "<?php foreach (\"a\".$b['c'] as $x) \x7b\x7d".toList
    let branch := "<?php do $x=$c?1:2; while ($d);".toList
    (Parse.file loop).diagnostics = [] ∧ (Parse.file branch).diagnostics = [] ∧
      (∃ change, AssistContext.apply ⟨Parse.file loop, 18, .default⟩ .concatToHeredoc = .ok change ∧
        (∀ edit ∈ change.edits, edit.Apart loop) ∧
        (Parse.file (change.apply loop)).diagnostics = []) ∧
      ∃ change,
        AssistContext.apply ⟨Parse.file branch, 14, .default⟩ .ternaryToIfElse = .ok change ∧
        (∀ edit ∈ change.edits, edit.Apart branch) ∧
        (Parse.file (change.apply branch)).diagnostics = [] := by
  intro loop branch
  obtain ⟨hloop, hbranch, hconcat, hternary⟩ :
      (Parse.file loop).diagnostics = [] ∧ (Parse.file branch).diagnostics = [] ∧
      (AssistContext.apply ⟨Parse.file loop, 18, .default⟩ .concatToHeredoc).toOption.any
        (fun (change : Change) => decide (∀ edit ∈ change.edits, edit.Apart loop)) = true ∧
      (AssistContext.apply ⟨Parse.file branch, 14, .default⟩ .ternaryToIfElse).toOption.any
        (fun (change : Change) => decide (∀ edit ∈ change.edits, edit.Apart branch)) = true := by
    decide +kernel
  rcases eq_ok_of_any hconcat with ⟨change, hchange, hapart⟩
  rcases eq_ok_of_any hternary with ⟨other, hother, happart⟩
  rw [decide_eq_true_eq] at hapart happart
  exact ⟨hloop, hbranch, ⟨change, hchange, hapart, diagnostics_apply hloop hchange hapart⟩,
    other, hother, happart, diagnostics_apply hbranch hother happart⟩

/-- Three files without diagnostics, and what is put into them goes on with the characters next to
    it: a keyword behind the label of a heredoc, a `<` in front of its opening, and a keyword in
    front of the condition. The new texts have diagnostics. -/
theorem diagnostics_of_seams :
    let label := "<?php foreach (\"a\".$b['c']as $x) \x7b\x7d".toList
    let shift := "<?php $x = $a<\"x\".$b;".toList
    let keyword := "<?php do$x=$c?1:2; while ($d);".toList
    let isWorse (text : Text) (offset : Nat) (id : AssistId) : Prop :=
      (Parse.file text).diagnostics = [] ∧
        ((AssistContext.apply ⟨Parse.file text, offset, .default⟩ id).toOption.map
          fun (change : Change) => (Parse.file (change.apply text)).diagnostics.isEmpty) =
            some false
    isWorse label 18 .concatToHeredoc ∧ isWorse shift 19 .concatToHeredoc ∧
      isWorse keyword 13 .ternaryToIfElse := by
  decide +kernel

end AssistContext

end PhpAssist

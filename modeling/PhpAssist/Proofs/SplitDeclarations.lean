import PhpAssist.Proofs.Leaves
import PhpAssist.Proofs.TernaryRewrite

/-!
# What a split assignment reads

Where the target of an assigned conditional is a variable, the rewrite declares it in a statement of
its own in front of the condition, with a placeholder for its value where one is configured.
Everything that the conditional reads is then read behind the declaration.

The condition and its branches use the names that the conditional used, in their order, and the
target once in each branch. Behind the declaration the variable is therefore read as often as the
conditional mentions it; where it does, it is the placeholder that is read.

## Main definitions

* `Shape.names`: The names in use in some code, by its shape.

## Theorems

* `Tree.names_shape`: The names that a tree uses are those of its shape.
* `Shape.names_choice`: The names in the condition that is written.
* `TernaryAssignment.split_reads`: What is read behind the declaration.
* `TernaryAssignment.placeholder_read`: A conditional that reads its placeholder.
-/

namespace PhpAssist

open Text

/-! ## Names by shapes -/

/-- The names that a word uses. -/
def Word.names (word : Word) : List Text := Names.ofToken ⟨[], word.kind, word.text, []⟩

theorem Word.names_of_kind {word : Word}
    (h : word.kind ∉ [.variableName, .doubleQuotedString, .heredocString]) : word.names = [] := by
  simp only [List.mem_cons, List.not_mem_nil, or_false, not_or] at h
  rw [names, Names.ofToken]
  split
  · rename_i hkind
    exact absurd hkind h.1
  · rename_i hkind
    exact absurd hkind h.2.1
  · rename_i hkind
    exact absurd hkind h.2.2
  · rfl

namespace Shape

/-- The names in use in some code. -/
def names (shape : Shape) : List Text := shape.words.flatMap Word.names

@[simp] theorem names_word (word : Word) : (Shape.word word).names = word.names := by
  rw [names, words_word, List.flatMap_singleton]

@[simp] theorem names_node (kind : Kind) (row : List Shape) :
    (Shape.node kind row).names = row.flatMap names := by
  rw [names, words_node]
  induction row with
  | nil => rfl
  | cons shape row ih => rw [wordsOf_cons, List.flatMap_append, ih, List.flatMap_cons, names]

/-- Parentheses use no names. -/
theorem names_paren {opening closing : Word} {inner : Shape} (hopening : opening.kind = .leftParen)
    (hclosing : closing.kind = .rightParen) :
    (Shape.node .parenExpr [.word opening, inner, .word closing]).names = inner.names := by
  have hnone {word : Word} (h : word.kind = .leftParen ∨ word.kind = .rightParen) :
      word.names = [] := by
    refine Word.names_of_kind ?_
    rcases h with h | h
    · rw [h]
      decide
    · rw [h]
      decide
  simp only [names_node, List.flatMap_cons, List.flatMap_nil, names_word, hnone (.inl hopening),
    hnone (.inr hclosing), List.nil_append, List.append_nil]

/-- An expression uses the same names without the parentheses around it. -/
theorem names_unwrapped (shape : Shape) (h : Grammar.Standalone shape) :
    shape.unwrapped.names = shape.names := by
  by_cases hkind : shape.kind = .parenExpr
  · have hparts := h.parts
    cases hparts with
    | assign | short | ternary => exact absurd hkind (by simp only [kind, reduceCtorEq,
        not_false_eq_true])
    | binary hbinding _ _ =>
      exact absurd hkind (Grammar.kind_ne_of_binding? hbinding (by decide) (by decide))
    | other _ _ hparen => exact absurd hkind hparen
    -- Brackets have no names, and below them there may be more.
    | @paren opening closing inner hopening hclosing hinner =>
      rcases hinner.exists_node with ⟨innerKind, row, rfl⟩
      rw [names_paren hopening hclosing, ← names_unwrapped (.node innerKind row) hinner]
      rfl
  · rw [unwrapped_of_kind hkind]
termination_by sizeOf shape

theorem names_grouped (value : Shape) : value.grouped.names = value.names := by
  rw [grouped]
  split
  · exact names_paren rfl rfl
  · rfl

/-- The condition that is written uses the names of its parts, and the target in each branch. -/
theorem names_choice {op : Word} (hop : op.kind = .equals ∨ op.kind = .assignOp)
    (condition target whenTrue whenFalse : Shape) :
    (choice condition target op whenTrue whenFalse).names =
      condition.names ++ (target.names ++ whenTrue.names) ++ (target.names ++ whenFalse.names) := by
  have hnone : op.names = [] := by
    refine Word.names_of_kind ?_
    rcases hop with hop | hop
    · rw [hop]
      decide
    · rw [hop]
      decide
  have hassignment (value : Shape) :
      (assignment target op value).names = target.names ++ value.names := by
    simp (disch := decide) only [assignment, names_node, List.flatMap_cons, List.flatMap_nil,
      names_word, hnone, names_grouped, Word.names_of_kind, List.nil_append, List.append_nil]
  simp (disch := decide) only [choice, names_node, List.flatMap_cons, List.flatMap_nil, names_word,
    hassignment, Word.names_of_kind, List.nil_append, List.append_nil, List.append_assoc]

/-- A conditional uses the names of its parts. -/
theorem names_ternary {question colon : Word} {condition whenTrue whenFalse : Shape}
    (h : Grammar.Standalone
      (.node .ternaryExpr [condition, .word question, whenTrue, .word colon, whenFalse])) :
    (Shape.node .ternaryExpr [condition, .word question, whenTrue, .word colon, whenFalse]).names =
      condition.names ++ whenTrue.names ++ whenFalse.names := by
  -- The grammar says what the two separators are.
  have hkinds : question.kind = .question ∧ colon.kind = .colon := by
    have hparts := h.parts
    generalize hrow : [condition, .word question, whenTrue, .word colon, whenFalse] = row at hparts
    generalize hkind : Kind.ternaryExpr = kind at hparts
    cases hparts with
    | ternary hquestion hcolon _ _ _ =>
      simp only [List.cons.injEq, Shape.word.injEq] at hrow
      exact ⟨hrow.2.1 ▸ hquestion, hrow.2.2.2.1 ▸ hcolon⟩
    | short => simp only [List.cons.injEq, reduceCtorEq, and_false] at hrow
    | assign | paren => exact absurd hkind (by decide)
    | binary hbinding _ _ =>
      exact absurd hkind.symm (Grammar.kind_ne_of_binding? hbinding (by decide) (by decide))
    | other _ hoperation _ =>
      rw [← hkind] at hoperation
      exact absurd hoperation (by decide)
  have hquestion : question.names = [] := Word.names_of_kind (by rw [hkinds.1]; decide)
  have hcolon : colon.names = [] := Word.names_of_kind (by rw [hkinds.2]; decide)
  simp only [names_node, List.flatMap_cons, List.flatMap_nil, names_word, hquestion, hcolon,
    List.nil_append, List.append_nil, List.append_assoc]

end Shape

/-- The names that a tree uses are told by its shape. -/
theorem Tree.names_shape (tree : Tree) :
    (Names.ofTokens tree.significant).taken = tree.shape.names := by
  have htokens (tokens : List Token) :
      (tokens.filter (!·.kind.isTrivia)).flatMap Names.ofToken =
        (tokens.map Token.word).flatMap Word.names := by
    induction tokens with
    | nil => rfl
    | cons tok tokens ih =>
      rw [List.map_cons, List.flatMap_cons, List.filter_cons]
      split
      · rw [List.flatMap_cons, ih]
        rfl
      · rename_i htrivia
        -- What is left out uses no names.
        have hnone : tok.word.names = [] := by
          refine Word.names_of_kind fun hmem => htrivia ?_
          simp only [List.mem_cons, List.not_mem_nil, or_false] at hmem
          have hkind : tok.word.kind = tok.kind := rfl
          rw [hkind] at hmem
          rcases hmem with hmem | hmem | hmem <;> rw [hmem] <;> rfl
        rw [hnone, ih, List.nil_append]
  rw [Names.ofTokens, significant, Shape.names, words_shape]
  exact htokens tree.tokens

/-- A variable is a dollar sign with its name behind it. -/
theorem Tree.name_of_variable {tree : Tree} (h : Grammar.Standalone tree.shape)
    (hexcerpt : tree.Excerpt) (hkind : tree.kind = .variable) :
    ∃ name, tree.trimmed = '$' :: name ∧ tree.shape.names = [name] := by
  rcases token_of_variable h hkind with ⟨tok, htree, htok⟩
  have hmem : tok ∈ tree.tokens := by
    rw [htree]
    exact List.mem_singleton_self tok
  rcases hexcerpt.lexes with ⟨_, _, hlexes⟩
  rcases hlexes.scan_of_mem hmem with ⟨after, hscan⟩
  rw [htok] at hscan
  generalize hspelled : tok.text ++ after = spelled at hscan
  generalize hcut : (⟨tok.text, after, true⟩ : Cut) = cut at hscan
  generalize hvar : Kind.variableName = kind at hscan
  -- A variable is spelled with a dollar sign and a run of name characters.
  cases Lexer.spelling_of_scan hscan with
  | @dollar rest htext =>
    have hname : tok.text = '$' :: (Cut.run isIdentContinue rest).taken := congrArg Cut.taken hcut
    refine ⟨(Cut.run isIdentContinue rest).taken, ?_, ?_⟩
    · rw [htree, trimmed_token (hexcerpt.kinds tok hmem)]
      exact hname
    · -- No character of the name is another dollar sign.
      have hdrop : (Cut.run isIdentContinue rest).taken.dropWhile (· == '$') =
          (Cut.run isIdentContinue rest).taken := by
        rcases hrun : (Cut.run isIdentContinue rest).taken with _ | ⟨c, more⟩
        · rfl
        have hc : isIdentContinue c = true :=
          List.mem_takeWhile_imp (show c ∈ (Cut.run isIdentContinue rest).taken by
            rw [hrun]
            exact List.mem_cons_self)
        refine List.dropWhile_cons_of_neg ?_
        rw [beq_iff_eq]
        rintro rfl
        exact absurd hc (by decide)
      have hword : tree.shape.names = Names.ofToken tok := by
        rw [htree, shape, Shape.names_node, shapesOf, shapesOf, List.flatMap_singleton]
        exact Shape.names_word tok.word
      rw [hword, Names.ofToken, htok, hname]
      exact congrArg (fun name => [name]) hdrop
  | single | double => exact absurd hvar (by decide)
  | @heredoc isNowdoc =>
    cases isNowdoc
    · exact absurd hvar (by decide)
    · exact absurd hvar (by decide)
  | mark hword _ =>
    have hpunctuation : ∀ entry ∈ Lexer.punctuation, entry.2 ≠ .variableName := by decide
    exact absurd hvar.symm (hpunctuation _ hword)
  | other _ hother =>
    rw [← hvar] at hother
    exact absurd hother (by decide)

namespace TernaryAssignment

/-- Whatever the placeholder, the condition that the rewrite writes uses the names that the
    conditional used, in their order, and the target once in each branch. Where the target is
    declared it is a variable, and behind the declaration it is used by the two assignments and as
    often as the conditional used it. -/
theorem split_reads {text : Text} {context : AssistContext} {change : Change}
    (hclean : (Parse.file text).diagnostics = []) (hparse : context.parse = Parse.file text)
    (h : context.apply .ternaryToIfElse = .ok change) :
    ∃ found parse choice, locate context = .ok found ∧ found.ternary ∈ context.ancestors ∧
      found.ternary.kind = .ternaryExpr ∧ change.edits = edits context found ∧
      Parse.fragment found.replacementText = .ok parse ∧ parse.root.childNodes = [choice] ∧
      (Names.of found.ternary).taken = (Names.of found.condition).taken ++
        (Names.of found.whenTrue).taken ++ (Names.of found.whenFalse).taken ∧
      (Names.of choice).taken = (Names.of found.condition).taken ++
        ((Names.of found.target).taken ++ (Names.of found.whenTrue).taken) ++
        ((Names.of found.target).taken ++ (Names.of found.whenFalse).taken) ∧
      (found.isDeclaration = true → ∃ name, found.target.trimmed = '$' :: name ∧
        (Names.of found.target).taken = [name] ∧
        (Names.of choice).taken.count name = (Names.of found.ternary).taken.count name + 2) := by
  rcases found_of_apply hclean hparse h with ⟨found, hlocate, hedits⟩
  have hfits := fits_of_locate hclean hparse hlocate
  rw [hparse] at hfits
  rcases fragment_replacement hclean hfits with ⟨parse, hfragment, _, hshape⟩
  rcases List.map_eq_singleton_iff.mp hshape with ⟨choice, hchoice, hshape⟩
  rcases ternary_of_locate hlocate with ⟨hternary, hkind, _⟩
  rcases hfits.ternary with ⟨question, colon, hparts⟩
  have hstandalone := hfits.standalone found.ternary List.mem_cons_self
  rw [hparts] at hstandalone
  -- What the conditional reads, and what the statement that replaces it reads.
  have hwhole : (Names.of found.ternary).taken = (Names.of found.condition).taken ++
      (Names.of found.whenTrue).taken ++ (Names.of found.whenFalse).taken := by
    simp only [Names.of, Tree.names_shape]
    rw [hparts, Shape.names_ternary hstandalone]
  have hreads : (Names.of choice).taken = (Names.of found.condition).taken ++
      ((Names.of found.target).taken ++ (Names.of found.whenTrue).taken) ++
      ((Names.of found.target).taken ++ (Names.of found.whenFalse).taken) := by
    have hcondition := hfits.standalone found.condition (by
      simp only [List.mem_cons, true_or, or_true])
    simp only [Names.of, Tree.names_shape]
    rw [hshape, Shape.names_choice hfits.operator, Shape.names_unwrapped _ hcondition]
  refine ⟨found, parse, choice, hlocate, hternary, hkind, hedits, hfragment, hchoice, hwhole, hreads,
    fun hdeclaration => ?_⟩
  have htarget : found.target.tree.kind = .variable := by
    rw [isDeclaration, Bool.and_eq_true, Bool.and_eq_true, beq_iff_eq, beq_iff_eq] at hdeclaration
    exact hdeclaration.1.2
  -- The target is one variable, written once in either branch.
  rcases Tree.name_of_variable (hfits.standalone found.target (by
    simp only [List.mem_cons, true_or, or_true])) (hfits.excerpt hclean _ List.mem_cons_self)
    htarget with ⟨name, htrimmed, hnames⟩
  have hname : (Names.of found.target).taken = [name] := by
    rw [← hnames]
    exact Tree.names_shape _
  refine ⟨name, htrimmed, hname, ?_⟩
  rw [hreads, hwhole, hname]
  simp only [List.count_append, List.count_singleton_self]
  omega

/-- A variable that is declared with a placeholder, in front of a condition on another one. -/
theorem split_reads_null :
    (Parse.file "<?php $x = $c ? $a : $b;".toList).diagnostics = [] ∧
      ∃ change found parse choice name,
        AssistContext.apply
          ⟨Parse.file "<?php $x = $c ? $a : $b;".toList, 14, ⟨.sprintf, some "null".toList⟩⟩
            .ternaryToIfElse = .ok change ∧
        Parse.fragment (replacementText found) = .ok parse ∧ parse.root.childNodes = [choice] ∧
        found.target.trimmed = '$' :: name ∧
        (Names.of choice).taken.count name = (Names.of found.ternary).taken.count name + 2 := by
  obtain ⟨hclean, hsome, hsplit⟩ :
      (Parse.file "<?php $x = $c ? $a : $b;".toList).diagnostics = [] ∧
      (AssistContext.apply
        ⟨Parse.file "<?php $x = $c ? $a : $b;".toList, 14, ⟨.sprintf, some "null".toList⟩⟩
        .ternaryToIfElse).toOption.isSome = true ∧
      (locate
        ⟨Parse.file "<?php $x = $c ? $a : $b;".toList, 14, ⟨.sprintf, some "null".toList⟩⟩
        ).toOption.all isDeclaration = true := by
    decide +kernel
  rcases happly : AssistContext.apply
      ⟨Parse.file "<?php $x = $c ? $a : $b;".toList, 14, ⟨.sprintf, some "null".toList⟩⟩
        .ternaryToIfElse with error | change
  · rw [happly] at hsome
    exact absurd hsome Bool.false_ne_true
  rcases split_reads hclean rfl happly with
    ⟨found, parse, choice, hlocate, _, _, _, hfragment, hchoice, _, _, hdeclared⟩
  rw [hlocate] at hsplit
  rcases hdeclared hsplit with ⟨name, htarget, _, hcount⟩
  exact ⟨hclean, change, found, parse, choice, name, rfl, hfragment, hchoice, htarget, hcount⟩

/-- A conditional on its own target reads the placeholder, and not what the target was. -/
theorem placeholder_read :
    let context : AssistContext :=
      ⟨Parse.file "<?php $x = $x ? 1 : 2;".toList, 14, ⟨.sprintf, some "null".toList⟩⟩
    context.parse.diagnostics = [] ∧
      (context.apply .ternaryToIfElse).toOption = some ⟨[⟨⟨6, 0⟩, "$x = null; ".toList⟩,
        ⟨⟨6, 16⟩, "if ($x) \x7b $x = 1; \x7d else \x7b $x = 2; \x7d".toList⟩]⟩ ∧
      (locate context).toOption.map (fun found => (Names.of found.condition).taken) =
        some ["x".toList] := by
  decide +kernel

end TernaryAssignment

end PhpAssist

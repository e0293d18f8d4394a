import PhpAssist.Assist
import PhpAssist.Proofs.Choice
import PhpAssist.Proofs.Edits

/-!
# An assigned conditional becomes a condition

Where the rewrite of a conditional is offered in a text without diagnostics, it succeeds, and what
it writes says the same: a condition on what the conditional asked, with its parentheses taken off,
and in each branch the assignment of one part to the target, by the operator that was there.

## Theorems

* `TernaryAssignment.spelled_replacement`: The words of what is written.
* `TernaryAssignment.change_eq`: When the rewrite succeeds, and with which edits.
* `TernaryAssignment.rewrite_faithful`: What is written, and when.
-/

namespace PhpAssist

open Text

namespace TernaryAssignment

variable {text : Text} {found : TernaryAssignment}

/-- The operator that was found is one of the table. -/
theorem Fits.entry (hclean : (Parse.file text).diagnostics = [])
    (h : found.Fits (Parse.file text).root) :
    ∃ entry ∈ Lexer.assignments, found.operator.token.word = ⟨entry.2, entry.1.toList⟩ := by
  rcases Parse.clean_file_of_diagnostics hclean with ⟨row, _, hrow⟩
  have hkind : found.operator.kind ≠ .endOfFile := by
    rcases h.operator with hkind | hkind
    all_goals
      rw [hkind]
      simp only [ne_eq, reduceCtorEq, not_false_eq_true]
  rcases hrow.scan_of_leaf h.operatorMember hkind with ⟨after, hscan⟩
  rcases Lexer.spelling_of_assign h.operator hscan with ⟨word, hword, htaken⟩
  refine ⟨_, Lexer.mem_assignments _ hword h.operator, ?_⟩
  rw [← show found.operator.token.text = word.toList from htaken]
  rfl

/-- The parts that were found can be taken out of the text. -/
theorem Fits.excerpt (hclean : (Parse.file text).diagnostics = [])
    (h : found.Fits (Parse.file text).root) :
    ∀ node ∈ [found.target, found.condition, found.whenTrue, found.whenFalse],
      node.tree.Excerpt := by
  intro node hnode
  refine Parse.excerpt_of_standalone hclean (h.members node ?_) (h.standalone node ?_)
  · exact List.mem_cons_of_mem _ (List.mem_cons_of_mem _ hnode)
  · exact List.mem_cons_of_mem _ hnode

/-- The text around the parts of the condition, cut where its words end. -/
theorem replacement_pieces (condition whenTrue whenFalse after : Text) :
    "if (".toList ++ condition ++ ") \x7b ".toList ++ whenTrue ++ " \x7d else \x7b ".toList ++
        whenFalse ++ " \x7d".toList ++ after =
      "if".toList ++ ' ' :: (['('] ++ (condition ++ ([')'] ++ ' ' ::
        ('{' :: ' ' :: whenTrue ++ ' ' :: '}' :: (' ' :: ("else".toList ++ ' ' ::
          ('{' :: ' ' :: whenFalse ++ ' ' :: '}' :: after))))))) := by
  simp only [List.append_assoc]
  rfl

/-- The condition that is written has the words of its shape, whatever comes behind it. -/
theorem spelled_replacement (hclean : (Parse.file text).diagnostics = [])
    (h : found.Fits (Parse.file text).root) {tokens : List Token} {trailing : List Trivia}
    {after behind rest : Text} (hbehind : Lexes tokens behind rest)
    (hafter : Trivia.Takes false trailing after behind) :
    Spelled ((Shape.choice found.condition.tree.shape.unwrapped found.target.tree.shape
        found.operator.token.word found.whenTrue.tree.shape found.whenFalse.tree.shape).words ++
          tokens.map Token.word)
      (found.replacementText ++ after) rest := by
  rcases h.entry hclean with ⟨entry, hentry, hop⟩
  have hexcerpt := h.excerpt hclean
  have htarget := hexcerpt found.target (by simp only [List.mem_cons, true_or])
  have htrue := hexcerpt found.whenTrue (by simp only [List.mem_cons, true_or, or_true])
  have hfalse := hexcerpt found.whenFalse (by simp only [List.mem_cons, true_or, or_true])
  have htrueParens := needsParens_eq (h.standalone found.whenTrue (by
    simp only [List.mem_cons, true_or, or_true]))
  have hfalseParens := needsParens_eq (h.standalone found.whenFalse (by
    simp only [List.mem_cons, true_or, or_true]))
  have hunwrapped := Node.unwrapped_unparenthesized
    (h.members found.condition (by simp only [List.mem_cons, true_or, or_true]))
    (h.standalone found.condition (by simp only [List.mem_cons, true_or, or_true]))
  have hcondition := Parse.excerpt_of_standalone hclean hunwrapped.1 hunwrapped.2.1
  -- The text is read from its end to its beginning.
  have hend : Spelled (⟨.rightBrace, ['}']⟩ :: _) ('}' :: after) rest :=
    .ofLexes hbehind hafter (List.cons_ne_nil _ _) rfl rfl
  have hlast := hend.block hentry hop htarget hfalse hfalseParens
  have helse : Spelled (⟨.elseKw, "else".toList⟩ :: _) ("else".toList ++ ' ' :: _) rest :=
    hlast.word hlast.spaced (by decide) rfl rfl
  have hbrace : Spelled (⟨.rightBrace, ['}']⟩ :: _) ('}' :: ' ' :: _) rest :=
    helse.word helse.spaced (List.cons_ne_nil _ _) rfl rfl
  have hfirst := hbrace.block hentry hop htarget htrue htrueParens
  have hclosing : Spelled (⟨.rightParen, [')']⟩ :: _) ([')'] ++ ' ' :: _) rest :=
    hfirst.word hfirst.spaced (List.cons_ne_nil _ _) rfl rfl
  have hinner := hclosing.excerpt hcondition hclosing.tight (follows_of_calm rfl)
    (Heredoc.breaks_of_head rfl rfl)
  have hopening : Spelled (⟨.leftParen, ['(']⟩ :: _) (['('] ++ _) rest :=
    hinner.word hinner.tight (List.cons_ne_nil _ _) rfl rfl
  have hif : Spelled (⟨.ifKw, "if".toList⟩ :: _) ("if".toList ++ ' ' :: _) rest :=
    hopening.word hopening.spaced (by decide) rfl rfl
  have htext : found.replacementText ++ after = _ := replacement_pieces
    found.condition.unparenthesized.trimmed (found.assign found.whenTrue)
    (found.assign found.whenFalse) after
  rw [htext]
  simp only [Shape.choice, Shape.words_node, Shape.wordsOf_cons, Shape.words_word,
    Shape.wordsOf_nil, List.append_nil, List.cons_append, List.nil_append, List.append_assoc,
    hunwrapped.2.2] at hif ⊢
  exact hif

/-- The shape of the condition that is written. -/
def written (found : TernaryAssignment) : Shape :=
  Shape.choice found.condition.tree.shape.unwrapped found.target.tree.shape
    found.operator.token.word found.whenTrue.tree.shape found.whenFalse.tree.shape

/-- The condition is a statement, whatever comes behind it. -/
theorem Fits.derives_written (h : found.Fits (Parse.file text).root) (look : Option Word) :
    Grammar.DerivesStmt .stmt look [found.written] := by
  have hcondition := h.standalone found.condition (by simp only [List.mem_cons, true_or, or_true])
  have htrue := h.standalone found.whenTrue (by simp only [List.mem_cons, true_or, or_true])
  have hfalse := h.standalone found.whenFalse (by simp only [List.mem_cons, true_or, or_true])
  have hmember := h.members found.condition (by simp only [List.mem_cons, true_or, or_true])
  have hunwrapped := Node.unwrapped_unparenthesized hmember hcondition
  have hassignable : Grammar.isAssignable found.target.tree.shape.kind = true := by
    rw [Tree.kind_shape]
    exact h.assignable
  have hderived :=
    Grammar.derives_choice h.operator hassignable h.target hunwrapped.2.1 htrue hfalse look
  rwa [hunwrapped.2.2] at hderived

/-- What is written in place of the statement is read without an error, as a condition. -/
theorem fragment_replacement (hclean : (Parse.file text).diagnostics = [])
    (h : found.Fits (Parse.file text).root) :
    ∃ parse, Parse.fragment found.replacementText = .ok parse ∧ parse.finished = true ∧
      parse.root.childNodes.map (fun node => node.tree.shape) =
        [Shape.choice found.condition.tree.shape.unwrapped found.target.tree.shape
          found.operator.token.word found.whenTrue.tree.shape found.whenFalse.tree.shape] := by
  have hrow : Grammar.DerivesStmt .stmts Option.none [found.written] :=
    .cons (h.derives_written _) .nil
  have hspelled := spelled_replacement hclean h .nil (@Trivia.Takes.nil false [] rfl)
  rw [List.append_nil] at hspelled
  have hspells := hspelled.spells
  rw [List.map_nil, ← Shape.wordsOf_nil, ← Shape.wordsOf_cons] at hspells
  rcases Parse.clean_fragment hspells hrow with ⟨parse, hparse, hclean'⟩
  exact ⟨parse, hparse, hclean'.finished, hclean'.single⟩

/-- A variable with a semicolon behind it is read without an error. -/
theorem fragment_declaration (hclean : (Parse.file text).diagnostics = [])
    (h : found.Fits (Parse.file text).root) :
    ∃ parse, Parse.fragment (found.declaration none) = .ok parse := by
  have hmem : found.target ∈ [found.target, found.condition, found.whenTrue, found.whenFalse] :=
    List.mem_cons_self
  have hspelled := Spelled.semicolon.excerpt (h.excerpt hclean _ hmem) Spelled.semicolon.tight
    (follows_of_calm rfl) (Heredoc.breaks_of_head rfl rfl)
  have hstandalone := h.standalone found.target (List.mem_cons_of_mem _ List.mem_cons_self)
  have hrow : Grammar.DerivesStmt .stmts Option.none
      [.node .exprStmt [found.target.tree.shape, .word ⟨.semicolon, [';']⟩]] :=
    .cons (.expr rfl (hstandalone _ (.of_kind rfl (.inl rfl)))) .nil
  have hspells : Lexing.Spells (found.declaration none)
      (Shape.wordsOf [.node .exprStmt [found.target.tree.shape, .word ⟨.semicolon, [';']⟩]]) := by
    simp only [Shape.wordsOf_cons, Shape.wordsOf_nil, Shape.words_node, Shape.words_word,
      List.append_nil]
    exact hspelled.spells
  rcases Parse.clean_fragment hspells hrow with ⟨parse, hparse, _⟩
  exact ⟨parse, hparse⟩

/-! ## The change -/

/-- The edits of the rewrite: the condition in place of the statement, and in front of it the
    variable by itself where it is declared. -/
def edits (context : AssistContext) (found : TernaryAssignment) : List Edit :=
  (if found.isDeclaration then
    Edit.before context.parse.text found.stmt.span.start
      [⟨found.target.trimmed, found.declaration context.config.placeholder⟩] else []) ++
    [⟨found.stmt.span, found.replacementText⟩]

/-- Where the parts were found, only the declaration can keep the rewrite from succeeding. -/
theorem change_eq {context : AssistContext} (hclean : (Parse.file text).diagnostics = [])
    (hparse : context.parse = Parse.file text) (hfound : locate context = .ok found) :
    change context =
      if found.isDeclaration then
        (parseGenerated (found.declaration context.config.placeholder)).map
          fun _ => ⟨edits context found⟩
      else .ok ⟨edits context found⟩ := by
  have hfits := fits_of_locate hclean hparse hfound
  rw [hparse] at hfits
  -- The replacement is always code, so only the declaration can be refused.
  rcases fragment_replacement hclean hfits with ⟨parse, hreplacement, _, _⟩
  have hgenerated : parseGenerated found.replacementText = .ok parse := by
    rw [parseGenerated, hreplacement]
    rfl
  unfold change edits
  rw [hfound]
  dsimp only [bind, Except.bind]
  rw [hgenerated]
  dsimp only
  split
  · rcases parseGenerated (found.declaration context.config.placeholder) with error | parse
    · rfl
    · exact Change.ofEdits_insertion _ (Nat.le_refl found.stmt.span.start)
  · exact Change.ofEdits_singleton _

/-- Where the parts were found and the variable is declared by itself, the rewrite succeeds. -/
theorem change_eq_ok {context : AssistContext} (hclean : (Parse.file text).diagnostics = [])
    (hparse : context.parse = Parse.file text) (hplaceholder : context.config.placeholder = none)
    (hfound : locate context = .ok found) : change context = .ok ⟨edits context found⟩ := by
  have hfits := fits_of_locate hclean hparse hfound
  rw [hparse] at hfits
  rcases fragment_declaration hclean hfits with ⟨parse, hdeclaration⟩
  have hgenerated : parseGenerated (found.declaration none) = .ok parse := by
    rw [parseGenerated, hdeclaration]
    rfl
  rw [change_eq hclean hparse hfound, hplaceholder, hgenerated]
  split <;> rfl

/-- Where the rewrite succeeds, its edits are those of what was found. -/
theorem found_of_apply {context : AssistContext} {change : Change}
    (hclean : (Parse.file text).diagnostics = []) (hparse : context.parse = Parse.file text)
    (h : context.apply .ternaryToIfElse = .ok change) :
    ∃ found, locate context = .ok found ∧ change.edits = edits context found := by
  have hchange : TernaryAssignment.change context = .ok change := h
  rcases hlocate : locate context with error | found
  · unfold TernaryAssignment.change at hchange
    rw [hlocate] at hchange
    exact absurd hchange (by simp only [bind, Except.bind, reduceCtorEq, not_false_eq_true])
  refine ⟨found, rfl, ?_⟩
  rw [change_eq hclean hparse hlocate] at hchange
  -- With a declaration and without one the edits are the same function of what was found.
  split at hchange
  · rcases hgenerated : parseGenerated (found.declaration context.config.placeholder) with
      error | generated
    · rw [hgenerated] at hchange
      exact absurd hchange (by simp only [Except.map, reduceCtorEq, not_false_eq_true])
    · rw [hgenerated] at hchange
      rw [← Except.ok.inj hchange]
  · rw [← Except.ok.inj hchange]

/-- In a file without diagnostics the rewrite of a conditional succeeds exactly where it is offered.
    What it writes in place of the statement is read without an error, as a condition on what the
    conditional asked without its parentheses. Each branch assigns a part of the conditional to the
    same target by the same operator, and the part is in parentheses only where its operator is
    `and`, `or` or `xor`. -/
theorem rewrite_faithful {text : Text} {context : AssistContext}
    (hclean : (Parse.file text).diagnostics = []) (hparse : context.parse = Parse.file text)
    (hplaceholder : context.config.placeholder = none) :
    ((∃ change, context.apply .ternaryToIfElse = .ok change) ↔
        context.isApplicable .ternaryToIfElse = true) ∧
      ∀ change, context.apply .ternaryToIfElse = .ok change →
        ∃ stmt assign ternary target op value condition question whenTrue colon whenFalse
            replacement parse,
          stmt ∈ context.parse.root.descendants ∧ stmt.kind = .exprStmt ∧
          stmt.first? = some assign ∧
          assign.tree.shape = .node .assignExpr [target, .word op, value] ∧
          ternary ∈ context.ancestors ∧ ternary.tree.shape = value.unwrapped ∧
          ternary.tree.shape = .node .ternaryExpr
            [condition, .word question, whenTrue, .word colon, whenFalse] ∧
          ⟨stmt.span, replacement⟩ ∈ change.edits ∧
          Parse.fragment replacement = .ok parse ∧ parse.finished = true ∧
          parse.root.childNodes.map (fun node => node.tree.shape) =
            [Shape.choice condition.unwrapped target op whenTrue whenFalse] := by
  rcases hlocate : locate context with error | found
  · have herror : change context = .error error := by
      unfold change
      rw [hlocate]
      rfl
    have hnone : target? context = none := by rw [target?, hlocate]
    simp only [AssistContext.apply, herror, AssistContext.isApplicable, AssistContext.target?, hnone,
      reduceCtorEq, exists_false, Option.isSome_none, Bool.false_eq_true, false_imp_iff,
      implies_true, and_self]
  -- Without a placeholder nothing that is found is refused.
  · have hok := change_eq_ok hclean hparse hplaceholder hlocate
    have hfits := fits_of_locate hclean hparse hlocate
    have hsome : target? context = some found.ternary.span := by rw [target?, hlocate]
    refine ⟨⟨fun _ => ?_, fun _ => ⟨_, hok⟩⟩, fun change hchange => ?_⟩
    · rw [AssistContext.isApplicable, AssistContext.target?, hsome]
      rfl
    rcases hfits.assign with ⟨assign, value, hfirst, hvalue, hassign⟩
    rcases hfits.ternary with ⟨question, colon, hternary⟩
    -- The statement, its parts as they were found, and the replacement as it is read back.
    have hstmt := hfits.members _ List.mem_cons_self
    have hkind := hfits.stmt
    rw [hparse] at hfits
    rcases fragment_replacement hclean hfits with ⟨parse, hfragment, hfinished, hshape⟩
    have hedits := Except.ok.inj (hok.symm.trans hchange)
    refine ⟨found.stmt, assign, found.ternary, _, _, value, _, question, _, colon, _,
      found.replacementText, parse, hstmt, hkind, hfirst, hassign, (ternary_of_locate hlocate).1,
      hvalue.symm, hternary, ?_, hfragment, hfinished, hshape⟩
    rw [← hedits, edits]
    exact List.mem_append_right _ (List.mem_singleton_self _)

/-- The operator `and` of a branch is held together by parentheses. -/
theorem rewrite_faithful_and :
    (Parse.file "$x .= ($c) ? $a and $b : 2;".toList).diagnostics = [] ∧
      ∃ change stmt replacement parse,
        AssistContext.apply
          ⟨Parse.file "$x .= ($c) ? $a and $b : 2;".toList, 11, .default⟩ .ternaryToIfElse =
            .ok change ∧
        ⟨Node.span stmt, replacement⟩ ∈ change.edits ∧ Parse.fragment replacement = .ok parse ∧
        ∃ condition target op whenTrue whenFalse,
          parse.root.childNodes.map (fun node => node.tree.shape) =
            [Shape.choice condition target op whenTrue whenFalse] := by
  obtain ⟨hclean, hoffered⟩ :
      (Parse.file "$x .= ($c) ? $a and $b : 2;".toList).diagnostics = [] ∧
      AssistContext.isApplicable
        ⟨Parse.file "$x .= ($c) ? $a and $b : 2;".toList, 11, .default⟩ .ternaryToIfElse = true := by
    decide +kernel
  have hfaithful := @rewrite_faithful _
    ⟨Parse.file "$x .= ($c) ? $a and $b : 2;".toList, 11, .default⟩ hclean rfl rfl
  rcases hfaithful.1.mpr hoffered with ⟨change, hchange⟩
  rcases hfaithful.2 change hchange with ⟨stmt, _, _, target, op, _, condition, _, whenTrue, _,
    whenFalse, replacement, parse, _, _, _, _, _, _, _, hedit, hfragment, _, hshape⟩
  exact ⟨hclean, change, stmt, replacement, parse, hchange, hedit, hfragment, _, target, op,
    whenTrue, whenFalse, hshape⟩

end TernaryAssignment

end PhpAssist

import PhpAssist.Proofs.Soundness

/-!
# Silent statements are grammatical

What holds of expressions holds of parameters, statements and whole files: what is read without a
report is derived by the grammar, in front of the word at which the rule stopped. The allowance
that each rule asks for grows with the calls it makes before it reads a token.

The clauses behind a condition are read by two rules, one for all `elseif` and one for the `else`.
The first cannot know what the second will find, so what is said of it is that its clauses go in
front of any others.

## Main definitions

* `Grammar.SoundStmtRules`: The statements about all rules for statements.

## Theorems

* `Grammar.derives_param`: A parameter.
* `Grammar.soundStmtRules`: The rules for statements are sound.
-/

namespace PhpAssist

namespace Grammar

theorem lookBefore_append (row more : List Shape) (look : Option Word) :
    lookBefore (row ++ more) look = lookBefore row (lookBefore more look) := by
  rw [lookBefore, Shape.wordsOf_append, lookBefore, lookBefore]
  rcases Shape.wordsOf row with _ | ⟨word, words⟩ <;> rfl

/-- What was ahead is the first word that was read, or what is ahead now. -/
theorem Takes.look {a b : State} {row : List Shape} (h : Takes a b row) :
    a.look = lookBefore row b.look := by
  rw [State.look, h.words, lookBefore, State.look]
  rcases Shape.wordsOf row with _ | ⟨word, words⟩ <;> rfl

/-! ## Parameters -/

theorem derives_unionMembers {allowance : Nat} {a : State}
    (hallowance : 8 * a.ahead.length + 1 ≤ allowance)
    (hsilent : Silent a (unionMembers allowance a)) :
    ∃ row, Takes a (unionMembers allowance a) row ∧
      UnionMembers (unionMembers allowance a).look row := by
  -- By induction on the calls: a member is a `|` and a name, and the next call has both behind it.
  induction allowance generalizing a with
  | zero => omega
  | succ allowance ih =>
    revert hsilent
    rw [unionMembers]
    split
    · rename_i hbar
      intro hsilent
      rw [State.isAtText_operator] at hbar
      rcases hwords : a.words with _ | ⟨bar, rest⟩
      · rw [State.look_of_words_nil hwords] at hbar
        exact absurd hbar Bool.false_ne_true
      rw [State.look_of_words hwords] at hbar
      have hbump := (Takes.bump hwords).1
      have hrest := accounted_unionMembers allowance (a.bump.expect .name)
      have hparts := (hsilent.split (Accounted.bump a) ((Accounted.expect _ _).trans hrest)).2.split
        (Accounted.expect _ _) hrest
      rcases hparts.1.expect (by decide) with ⟨name, hname, _, hexpect⟩
      have hlength := hbump.length_word
      have hlength' := hexpect.length_word
      rcases ih (by omega) hparts.2 with ⟨row, hrow, hmembers⟩
      exact ⟨_, hbump.trans (hexpect.trans hrow), .more hbar hname hmembers⟩
    · rename_i hbar
      intro _
      rw [State.isAtText_operator, Bool.not_eq_true] at hbar
      exact ⟨[], .refl a, .done hbar⟩

/-- A token that may be missing is read, or nothing is. -/
theorem Takes.skip (a : State) {kind : Kind} (hkind : kind ≠ .endOfFile) :
    (∃ word, word.kind = kind ∧ Takes a (a.skip kind) [.word word]) ∨ Takes a (a.skip kind) [] := by
  rw [State.skip]
  by_cases hat : a.isAt kind = true
  · rw [if_pos hat]
    rcases State.words_of_kind (beq_iff_eq.mp hat) hkind with ⟨word, rest, hwords, hword⟩
    exact .inl ⟨word, hword, (bump hwords).1⟩
  · rw [if_neg hat]
    exact .inr (refl a)

theorem derives_typeRef {allowance : Nat} {a : State}
    (hallowance : 8 * a.ahead.length + 1 ≤ allowance) (hsilent : Silent a (typeRef allowance a)) :
    ∃ type, Takes a (typeRef allowance a) [type] ∧ TypeShape (typeRef allowance a).look type := by
  have hquiet : Silent a.start
      (unionMembers allowance ((a.start.skip .question).expect .name)) := hsilent
  have hmembers := accounted_unionMembers allowance ((a.start.skip .question).expect .name)
  have hparts := hquiet.split (Accounted.skip _ _) ((Accounted.expect _ _).trans hmembers)
  have hsplit := hparts.2.split (Accounted.expect _ _) hmembers
  rcases hsplit.1.expect (by decide) with ⟨name, hname, _, hexpect⟩
  have hlength := hexpect.length
  have hahead : a.start.ahead.length = a.ahead.length := rfl
  -- The question mark has been skipped, or there was none.
  rcases Takes.skip a.start (show Kind.question ≠ .endOfFile by decide) with
    ⟨mark, hmark, hskip⟩ | hskip
  all_goals
    have hlength' := hskip.length
    rcases derives_unionMembers (by omega) hsplit.2 with ⟨row, hrow, hunion⟩
    have htakes := (hskip.trans (hexpect.trans hrow)).close (show Kind.typeRef ≠ .tombstone by decide)
  · exact ⟨_, htakes.takes, .optional hmark hname hunion⟩
  · exact ⟨_, htakes.takes, .plain hname hunion⟩

/-- A `&` in front of something, or nothing. -/
theorem Takes.skipMark (a : State) :
    (∃ mark, mark.isText .operator "&" = true ∧ a.look = some mark ∧
      Takes a (if a.isAtText .operator "&" then a.bump else a) [.word mark]) ∨
    ((if a.isAtText .operator "&" then a.bump else a) = a ∧ a.isAtText .operator "&" = false) := by
  by_cases hat : a.isAtText .operator "&" = true
  · rw [if_pos hat]
    rw [State.isAtText_operator] at hat
    rcases hwords : a.words with _ | ⟨mark, rest⟩
    · rw [State.look_of_words_nil hwords] at hat
      exact absurd hat Bool.false_ne_true
    · rw [State.look_of_words hwords] at hat
      exact .inl ⟨mark, hat, State.look_of_words hwords, (bump hwords).1⟩
  · rw [if_neg hat]
    exact .inr ⟨rfl, Bool.not_eq_true _ ▸ hat⟩

theorem derives_paramName {allowance : Nat} {a : State}
    (hallowance : 8 * a.ahead.length + 1 ≤ allowance)
    (hsilent : Silent a (paramName allowance a)) :
    ∃ row, Takes a (paramName allowance a) row ∧ ParamName row := by
  -- What is read behind a type is read in the same way where there is none.
  have hvariable (b : State)
      (hquiet : Silent b ((if b.isAtText .operator "&" then b.bump else b).expect .variableName)) :
      ∃ row, Takes b ((if b.isAtText .operator "&" then b.bump else b).expect .variableName) row ∧
        ParamVariable row := by
    have hparts := hquiet.split (Accounted.optional _ (.bump b)) (.expect _ _)
    rcases hparts.2.expect (by decide) with ⟨var, hvar, _, hexpect⟩
    rcases Takes.skipMark b with ⟨mark, hmark, _, hskip⟩ | ⟨hskip, _⟩
    · exact ⟨_, hskip.trans hexpect, .marked hmark hvar⟩
    · rw [hskip] at hexpect ⊢
      exact ⟨_, hexpect, .plain hvar⟩
  revert hsilent
  rw [paramName]
  by_cases hat : (a.isAt .name || a.isAt .question) = true
  · rw [if_pos hat]
    intro hsilent
    have hparts := hsilent.split (accounted_typeRef allowance a)
      ((Accounted.optional _ (.bump _)).trans (.expect _ _))
    rcases derives_typeRef hallowance hparts.1 with ⟨type, htakes, htype⟩
    rcases hvariable _ hparts.2 with ⟨row, hrow, hname⟩
    refine ⟨_, htakes.trans hrow, .typed hname ?_⟩
    -- The type ends in front of the name, which holds a word.
    rwa [hrow.look, lookBefore, Option.or_of_isSome] at htype
    cases hname <;> rfl
  · rw [if_neg hat]
    intro hsilent
    rcases hvariable a hsilent with ⟨row, hrow, hname⟩
    exact ⟨row, hrow, .untyped hname⟩

theorem param_of_not_first {allowance : Nat} {state : State}
    (h : state.isAtOneOf parameters.first = false) : param allowance state = (false, state) := by
  have h' : state.isAtOneOf canStartParam = false := h
  rw [param, h', if_neg Bool.false_ne_true]

theorem derives_param {allowance : Nat} {a : State}
    (hallowance : 8 * a.ahead.length + 4 ≤ allowance) (hsilent : Silent a (param allowance a).2)
    (hat : a.isAtOneOf parameters.first = true) : (param allowance a).1 = true ∧
      ∃ shape, Takes a (param allowance a).2 [shape] ∧
        Derives (.item .parameter) (param allowance a).2.look [shape] := by
  have hat' : a.isAtOneOf canStartParam = true := hat
  rw [param, if_pos hat'] at hsilent ⊢
  dsimp only at hsilent ⊢
  refine ⟨rfl, ?_⟩
  have hahead : a.start.ahead.length = a.ahead.length := rfl
  have hname := accounted_paramName allowance a.start
  -- A default is read where a `=` follows the name.
  by_cases hequals : (paramName allowance a.start).isAt .equals = true
  · rw [if_pos hequals] at hsilent ⊢
    have hdefault := (Accounted.bump (paramName allowance a.start)).trans
      (accounted_expr allowance 0 _)
    have hquiet : Silent a.start (expr allowance 0 (paramName allowance a.start).bump).2 := hsilent
    have hparts := hquiet.split hname hdefault
    rcases derives_paramName (by omega) hparts.1 with ⟨row, hrow, hparam⟩
    have hlength := hrow.length
    rcases State.words_of_kind (beq_iff_eq.mp hequals) (by decide) with
      ⟨equals, rest, hwords, hkind⟩
    rcases (soundRules allowance).derives_behind hwords (by omega) 0 hparts.2 with
      ⟨value, hvalue, hderives⟩
    exact ⟨_, ((hrow.trans hvalue).close (by decide)).takes, .paramDefault hparam hkind hderives⟩
  · rw [if_neg hequals] at hsilent ⊢
    have hquiet : Silent a.start (paramName allowance a.start) := hsilent
    rcases derives_paramName (by omega) hquiet with ⟨row, hrow, hparam⟩
    exact ⟨_, (hrow.close (by decide)).takes,
      .param hparam (State.aheadKind_ne hequals)⟩

/-! ## Parts of statements -/

section Parts

variable {allowance : Nat}

theorem derives_anyExpr {a : State} (hallowance : 8 * a.ahead.length + 4 ≤ allowance)
    (hsilent : Silent a (anyExpr allowance a)) :
    ∃ value, Takes a (anyExpr allowance a) [value] ∧
      Derives (.expr 0) (anyExpr allowance a).look [value] :=
  ((soundRules allowance).expr 0 a hallowance hsilent).takes

theorem derives_commaSeparated {count : Nat} {a : State} {value : Shape}
    (hcount : 8 * a.ahead.length + 1 ≤ count) (hallowance : 8 * a.ahead.length + 4 ≤ allowance)
    (hvalue : Derives (.expr 0) a.look [value])
    (hsilent : Silent a (commaSeparated (anyExpr allowance) count a)) :
    ∃ row, Takes a (commaSeparated (anyExpr allowance) count a) row ∧
      Exprs (commaSeparated (anyExpr allowance) count a).look (value :: row) := by
  -- By induction on the calls: each round reads a comma and one value behind it.
  induction count generalizing a value with
  | zero => omega
  | succ count ih =>
    revert hsilent
    rw [commaSeparated]
    by_cases hat : a.isAt .comma = true
    · rw [if_pos hat]
      intro hsilent
      rcases State.words_of_kind (beq_iff_eq.mp hat) (by decide) with ⟨comma, rest, hwords, hcomma⟩
      rw [State.look_of_words hwords] at hvalue
      have hbump := (Takes.bump hwords).1
      have hlength := hbump.length_word
      have hitem := accounted_anyExpr allowance a.bump
      have hrest := accounted_commaSeparated (accounted_anyExpr allowance) count
        (anyExpr allowance a.bump)
      have hparts := (hsilent.split (Accounted.bump a) (hitem.trans hrest)).2.split hitem hrest
      rcases derives_anyExpr (by omega) hparts.1 with ⟨next, hnext, hderives⟩
      have hlength' := hnext.length
      rcases ih (by omega) (by omega) hderives hparts.2 with ⟨row, hrow, hexprs⟩
      exact ⟨_, hbump.trans (hnext.trans hrow), .more hvalue hcomma hexprs⟩
    · rw [if_neg hat]
      intro _
      exact ⟨[], .refl a, .one hvalue (State.aheadKind_ne hat)⟩

theorem derives_exprList {a : State} (hallowance : 8 * a.ahead.length + 4 ≤ allowance)
    (hsilent : Silent a (exprList allowance a)) :
    ∃ row, Takes a (exprList allowance a) row ∧ Exprs (exprList allowance a).look row := by
  have hparts := hsilent.split (accounted_anyExpr allowance a)
    (accounted_commaSeparated (accounted_anyExpr allowance) _ _)
  rcases derives_anyExpr hallowance hparts.1 with ⟨value, hvalue, hderives⟩
  have hlength := hvalue.length
  rcases derives_commaSeparated (by omega) (by omega) hderives hparts.2 with ⟨row, hrow, hexprs⟩
  exact ⟨_, hvalue.trans hrow, hexprs⟩

theorem derives_condition {a : State} (hallowance : 8 * a.ahead.length ≤ allowance)
    (hsilent : Silent a (condition allowance a)) :
    ∃ row, Takes a (condition allowance a) row ∧ Guard row := by
  have hrest := (accounted_anyExpr allowance (a.expect .leftParen)).trans
    (Accounted.expect _ .rightParen)
  have hparts := hsilent.split (Accounted.expect _ _) hrest
  have hsplit := hparts.2.split (accounted_anyExpr _ _) (.expect _ _)
  rcases hparts.1.expect (by decide) with ⟨opening, hopening, _, hopen⟩
  rcases hsplit.2.expect (by decide) with ⟨closing, hclosing, hlook, hclose⟩
  have hlength := hopen.length_word
  rcases derives_anyExpr (by omega) hsplit.1 with ⟨inner, hinner, hderives⟩
  rw [hlook] at hderives
  exact ⟨_, hopen.trans (hinner.trans hclose), .mk hopening hclosing hderives⟩

theorem derives_forPart {a : State} {terminator : Kind} (hend : terminator ≠ .endOfFile)
    (hallowance : 8 * a.ahead.length + 4 ≤ allowance)
    (hsilent : Silent a (forPart allowance a terminator)) :
    ∃ row, Takes a (forPart allowance a terminator) row ∧ ForPart terminator row := by
  revert hsilent
  rw [forPart]
  -- A part is empty where its terminator is ahead.
  by_cases hat : a.isAt terminator = true
  · rw [if_pos hat]
    intro hsilent
    rcases hsilent.expect hend with ⟨stop, hstop, _, hexpect⟩
    exact ⟨_, hexpect, .empty hstop⟩
  · rw [if_neg hat]
    intro hsilent
    have hparts := hsilent.split (accounted_exprList allowance a) (.expect _ _)
    rcases hparts.2.expect hend with ⟨stop, hstop, hlook, hexpect⟩
    rcases derives_exprList hallowance hparts.1 with ⟨row, hrow, hexprs⟩
    rw [hlook] at hexprs
    exact ⟨_, hrow.trans hexpect, .exprs hexprs hstop⟩

theorem derives_forHead {a : State} (hallowance : 8 * a.ahead.length ≤ allowance)
    (hsilent : Silent a (forHead allowance a)) :
    ∃ row, Takes a (forHead allowance a) row ∧ LoopHead .forStmt row := by
  rw [forHead_eq] at hsilent ⊢
  have hpart (state : State) (kind : Kind) := accounted_forPart allowance state kind
  -- The head is taken apart at its three parts, from the left.
  have hparts := hsilent.split (Accounted.expect _ _)
    ((hpart _ _).trans ((hpart _ _).trans (hpart _ _)))
  have hfirst := hparts.2.split (hpart _ .semicolon)
    ((hpart _ .semicolon).trans (hpart _ .rightParen))
  have hsecond := hfirst.2.split (hpart _ .semicolon) (hpart _ .rightParen)
  rcases hparts.1.expect (by decide) with ⟨opening, hopening, _, hopen⟩
  have hlength := hopen.length_word
  rcases derives_forPart (by decide) (by omega) hfirst.1 with ⟨first, hone, hforone⟩
  have hlengthOne := hone.length
  rcases derives_forPart (by decide) (by omega) hsecond.1 with ⟨second, htwo, hfortwo⟩
  have hlengthTwo := htwo.length
  rcases derives_forPart (by decide) (by omega) hsecond.2 with ⟨third, hthree, hforthree⟩
  refine ⟨_, hopen.trans ((hone.trans htwo).trans hthree), ?_⟩
  exact .forHead hopening hforone hfortwo hforthree

theorem derives_arrowValue {a : State} {key : Shape} (hallowance : 8 * a.ahead.length ≤ allowance)
    (hkey : Derives (.expr 0) a.look [key])
    (hsilent : Silent a (arrowValue (expr allowance 0) a)) :
    ∃ row, Takes a (arrowValue (expr allowance 0) a) row ∧
      EachTarget (arrowValue (expr allowance 0) a).look (key :: row) := by
  revert hsilent
  rw [arrowValue]
  by_cases hat : a.isAt .fatArrow = true
  · rw [if_pos hat]
    intro hsilent
    rcases State.words_of_kind (beq_iff_eq.mp hat) (by decide) with ⟨arrow, rest, hwords, harrow⟩
    rcases (soundRules allowance).derives_behind hwords (by omega) 0 hsilent with
      ⟨value, hvalue, hderives⟩
    rw [State.look_of_words hwords] at hkey
    exact ⟨_, hvalue, .keyed hkey harrow hderives⟩
  · rw [if_neg hat]
    intro _
    exact ⟨[], .refl a, .value hkey (State.aheadKind_ne hat)⟩

theorem derives_foreachHead {a : State} (hallowance : 8 * a.ahead.length ≤ allowance)
    (hsilent : Silent a (foreachHead allowance a)) :
    ∃ row, Takes a (foreachHead allowance a) row ∧ LoopHead .foreachStmt row := by
  have hany (state : State) := accounted_anyExpr allowance state
  have harrow (state : State) := accounted_arrowValue (accounted_expr allowance 0) state
  have htarget (state : State) : Accounted state ((arrowValue (expr allowance 0)
      (anyExpr allowance state)).expect .rightParen) :=
    (hany _).trans ((harrow _).trans (.expect _ _))
  -- The head is taken apart at the five calls that read it, from the left.
  have hparts := Silent.split (b := a.expect .leftParen) hsilent (.expect _ _)
    ((hany _).trans ((Accounted.expect _ _).trans (htarget _)))
  have hfirst := hparts.2.split (hany _) ((Accounted.expect _ .asKw).trans (htarget _))
  have hsecond := hfirst.2.split (Accounted.expect _ _) (htarget _)
  have hthird := hsecond.2.split (hany _) ((harrow _).trans (.expect _ _))
  have hfourth := hthird.2.split (harrow _) (.expect _ _)
  rcases hparts.1.expect (by decide) with ⟨opening, hopening, _, hopen⟩
  rcases hsecond.1.expect (by decide) with ⟨separator, hseparator, hlook, has⟩
  rcases hfourth.2.expect (by decide) with ⟨closing, hclosing, hlook', hclose⟩
  have hlength := hopen.length_word
  rcases derives_anyExpr (by omega) hfirst.1 with ⟨subject, hsubject, hderives⟩
  have hlengthSubject := hsubject.length
  have hlengthAs := has.length
  rcases derives_anyExpr (by omega) hthird.1 with ⟨key, hkey, hkeyDerives⟩
  have hlengthKey := hkey.length
  rcases derives_arrowValue (by omega) hkeyDerives hfourth.1 with ⟨row, hrow, heach⟩
  rw [hlook] at hderives
  rw [hlook'] at heach
  refine ⟨_, hopen.trans (hsubject.trans (has.trans ((hkey.trans hrow).trans hclose))), ?_⟩
  exact .eachHead hopening hderives hseparator heach hclosing

theorem derives_functionName {a : State} (hsilent : Silent a (functionName a)) :
    ∃ row, Takes a (functionName a) row ∧ FunctionName row := by
  have hname (b : State) (hquiet : Silent b (if b.isAt .name then b.bump
      else b.rejectUnless "expected function name" (.ofList [.leftParen, .leftBrace]))) :
      ∃ name, name.kind = .name ∧ Takes b (if b.isAt .name then b.bump
        else b.rejectUnless "expected function name" (.ofList [.leftParen, .leftBrace]))
        [.word name] := by
    by_cases hat : b.isAt .name = true
    · rw [if_pos hat]
      rcases State.words_of_kind (beq_iff_eq.mp hat) (by decide) with ⟨name, rest, hwords, hname⟩
      exact ⟨name, hname, (Takes.bump hwords).1⟩
    · rw [if_neg hat, State.rejectUnless] at hquiet
      split at hquiet
      · exact absurd hquiet (Silent.not_cons rfl)
      · exact absurd hquiet (Silent.not_reject (.refl _))
  have hnamed (b : State) : Accounted b (if b.isAt .name then b.bump
      else b.rejectUnless "expected function name" (.ofList [.leftParen, .leftBrace])) := by
    split
    · exact .bump b
    · exact .rejectUnless b _ _
  have hparts := Silent.split hsilent (.optional _ (.bump a)) (hnamed _)
  rcases hname _ hparts.2 with ⟨name, hkind, htakes⟩
  -- A `&` in front of the name is read, if there is one.
  rcases Takes.skipMark a with ⟨mark, hmark, _, hskip⟩ | ⟨hskip, _⟩
  · exact ⟨_, hskip.trans htakes, .marked hmark hkind⟩
  · rw [hskip] at htakes
    refine ⟨_, ?_, .plain hkind⟩
    rw [functionName, hskip]
    exact htakes

theorem derives_paramList {a : State} {opening : Word} {rest : List Word}
    (hwords : a.words = opening :: rest) (hallowance : 8 * a.ahead.length ≤ allowance)
    (hsilent : Silent a (paramList allowance a)) :
    ∃ closing row, closing.kind = .rightParen ∧ Takes a (paramList allowance a)
        [.node .paramList (.word opening :: (row ++ [Shape.word closing]))] ∧
      Derives (.items .parameter) (some closing) row := by
  have hwords' : a.start.words = opening :: rest := hwords
  have hitem : SoundItem .parameter allowance (param allowance) :=
    ⟨accounted_param allowance, fun _ => param_of_not_first, fun _ => derives_param⟩
  rcases derives_delimited hitem hwords' hallowance hallowance hsilent with
    ⟨closing, row, hclosing, htakes, hrow⟩
  exact ⟨closing, row, hclosing, (htakes.close (by decide)).takes, hrow⟩

theorem derives_resultType {a : State} (hallowance : 8 * a.ahead.length ≤ allowance)
    (hsilent : Silent a (resultType allowance a)) :
    ∃ row, Takes a (resultType allowance a) row ∧
      ResultType (resultType allowance a).look row := by
  revert hsilent
  rw [resultType]
  by_cases hat : a.isAt .colon = true
  · rw [if_pos hat]
    intro hsilent
    rcases State.words_of_kind (beq_iff_eq.mp hat) (by decide) with ⟨colon, rest, hwords, hcolon⟩
    have hbump := (Takes.bump hwords).1
    have hlength := hbump.length_word
    have hparts := hsilent.split (Accounted.bump a) (accounted_typeRef _ _)
    rcases derives_typeRef (by omega) hparts.2 with ⟨type, htakes, htype⟩
    exact ⟨_, hbump.trans htakes, .some hcolon htype⟩
  · rw [if_neg hat]
    intro _
    exact ⟨[], .refl a, .none (State.aheadKind_ne hat)⟩

theorem derives_functionHead {a : State} (hallowance : 8 * a.ahead.length ≤ allowance)
    (hsilent : Silent a (functionHead allowance a)) :
    ∃ row, Takes a (functionHead allowance a) row ∧
      FunctionHead (functionHead allowance a).look row := by
  have hname := accounted_functionName a
  have hparams (b : State) : Accounted b (functionParams allowance b) := by
    unfold functionParams
    split
    · exact accounted_paramList allowance b
    · exact .report b _
  have hresult (b : State) : Accounted b (resultType allowance b) :=
    .optional _ ((Accounted.bump b).trans (accounted_typeRef _ _))
  have hparts := hsilent.split hname ((hparams _).trans (hresult _))
  have hsplit := hparts.2.split (hparams _) (hresult _)
  rcases derives_functionName hparts.1 with ⟨name, htakes, hderives⟩
  have hlength := htakes.length
  have hquiet := hsplit.1
  rw [functionHead]
  have hrest : Silent _ (resultType allowance (functionParams allowance (functionName a))) :=
    hsplit.2
  rw [functionParams] at hquiet hrest ⊢
  -- Without a parenthesis behind the name a report is made.
  by_cases hat : (functionName a).isAt .leftParen = true
  · rw [if_pos hat] at hquiet hrest ⊢
    rcases State.words_of_kind (beq_iff_eq.mp hat) (by decide) with
      ⟨opening, rest, hwords, hopening⟩
    rcases derives_paramList hwords (by omega) hquiet with ⟨closing, row, hclosing, hlist, hrow⟩
    have hlength' := hlist.length
    rcases derives_resultType (by omega) hrest with ⟨result, hresult, htype⟩
    exact ⟨_, htakes.trans (hlist.trans hresult), .mk hderives hopening hrow hclosing htype⟩
  · rw [if_neg hat] at hquiet
    exact absurd hquiet (Silent.not_cons rfl)

end Parts

/-! ## Statements -/

/-- What is known of the rules for statements with a given allowance. -/
structure SoundStmtRules (allowance : Nat) : Prop where
  stmtList : ∀ closing a, 8 * a.ahead.length + 6 ≤ allowance →
    Silent a (Grammar.stmtList closing allowance a) →
    ∃ row, Takes a (Grammar.stmtList closing allowance a) row ∧
      DerivesStmt .stmts (Grammar.stmtList closing allowance a).look row
  stmt : ∀ a, 8 * a.ahead.length + 5 ≤ allowance → Silent a (Grammar.stmt allowance a) →
    ∃ shape, Takes a (Grammar.stmt allowance a) [shape] ∧
      DerivesStmt .stmt (Grammar.stmt allowance a).look [shape]
  block : ∀ a opening rest, a.words = opening :: rest → 8 * a.ahead.length + 1 ≤ allowance →
    Silent a (Grammar.block allowance a) → ∃ closing row, closing.kind = .rightBrace ∧
      Takes a (Grammar.block allowance a)
        [.node .block (.word opening :: (row ++ [.word closing]))] ∧
      DerivesStmt .stmts (some closing) row
  body : ∀ a, 8 * a.ahead.length + 6 ≤ allowance → Silent a (Grammar.body allowance a) →
    ∃ shape, Takes a (Grammar.body allowance a) [shape] ∧
      DerivesStmt .stmt (Grammar.body allowance a).look [shape]
  elseifClauses : ∀ a, 8 * a.ahead.length + 1 ≤ allowance →
    Silent a (Grammar.elseifClauses allowance a) →
    ∃ row, Takes a (Grammar.elseifClauses allowance a) row ∧
      aheadKind (Grammar.elseifClauses allowance a).look ≠ .elseifKw ∧
      ∀ look more, lookBefore more look = (Grammar.elseifClauses allowance a).look →
        DerivesStmt .branches look more → DerivesStmt .branches look (row ++ more)
  elseClause : ∀ a, 8 * a.ahead.length + 1 ≤ allowance →
    Silent a (Grammar.elseClause allowance a) → aheadKind a.look ≠ .elseifKw →
    ∃ row, Takes a (Grammar.elseClause allowance a) row ∧
      DerivesStmt .branches (Grammar.elseClause allowance a).look row

namespace SoundStmtRules

theorem zero : SoundStmtRules 0 where
  stmtList _ a h := absurd h (by omega)
  stmt a h := absurd h (by omega)
  block a _ _ _ h := absurd h (by omega)
  body a h := absurd h (by omega)
  elseifClauses a h := absurd h (by omega)
  elseClause a h := absurd h (by omega)

variable {allowance : Nat} (rules : SoundStmtRules allowance)
include rules

theorem stmtList_succ (closing : Kind) (a : State)
    (hallowance : 8 * a.ahead.length + 6 ≤ allowance + 1)
    (hsilent : Silent a (Grammar.stmtList closing (allowance + 1) a)) :
    ∃ row, Takes a (Grammar.stmtList closing (allowance + 1) a) row ∧
      DerivesStmt .stmts (Grammar.stmtList closing (allowance + 1) a).look row := by
  revert hsilent
  have hstmt := (stmtRules allowance).stmt a
  have hrest (state : State) := (stmtRules allowance).stmtList closing state
  rw [Grammar.stmtList]
  split
  · intro _
    exact ⟨[], .refl a, .nil⟩
  dsimp only
  split
  · -- A statement that read nothing is rejected, which is not silent.
    intro hsilent
    have hreject := Accounted.reject (Grammar.stmt allowance a) "expected statement"
    have hparts := hsilent.split hstmt (hreject.trans (hrest _))
    exact absurd hparts.2 (Silent.not_reject (hrest _))
  · rename_i hread
    intro hsilent
    have hparts := hsilent.split hstmt (hrest _)
    rcases rules.stmt a (by omega) hparts.1 with ⟨first, hfirst, hderives⟩
    -- The rest is read with fewer tokens ahead, since the statement was not empty.
    have hlength := hfirst.length
    rcases rules.stmtList closing _ (by omega) hparts.2 with ⟨row, hrow, hstmts⟩
    rw [hrow.look] at hderives
    exact ⟨_, hfirst.trans hrow, .cons hderives hstmts⟩

theorem block_succ (a : State) (opening : Word) (rest : List Word)
    (hwords : a.words = opening :: rest) (hallowance : 8 * a.ahead.length + 1 ≤ allowance + 1)
    (hsilent : Silent a (Grammar.block (allowance + 1) a)) :
    ∃ closing row, closing.kind = .rightBrace ∧
      Takes a (Grammar.block (allowance + 1) a)
        [.node .block (.word opening :: (row ++ [Shape.word closing]))] ∧
      DerivesStmt .stmts (some closing) row := by
  rw [Grammar.block] at hsilent ⊢
  have hwords' : a.start.words = opening :: rest := hwords
  have hahead : a.start.ahead.length = a.ahead.length := rfl
  have hbump := (Takes.bump hwords').1
  have hlength := hbump.length_word
  have hlist := (stmtRules allowance).stmtList .rightBrace a.start.bump
  have hquiet : Silent a.start
      ((Grammar.stmtList .rightBrace allowance a.start.bump).expect .rightBrace) := hsilent
  have hparts := (hquiet.split (Accounted.bump _) (hlist.trans (.expect _ _))).2.split hlist
    (.expect _ _)
  rcases hparts.2.expect (by decide) with ⟨closing, hclosing, hlook, hexpect⟩
  rcases rules.stmtList .rightBrace _ (by omega) hparts.1 with ⟨row, hrow, hstmts⟩
  rw [hlook] at hstmts
  exact ⟨closing, row, hclosing,
    ((hbump.trans (hrow.trans hexpect)).close (by decide)).takes, hstmts⟩

theorem body_succ (a : State) (hallowance : 8 * a.ahead.length + 6 ≤ allowance + 1)
    (hsilent : Silent a (Grammar.body (allowance + 1) a)) :
    ∃ shape, Takes a (Grammar.body (allowance + 1) a) [shape] ∧
      DerivesStmt .stmt (Grammar.body (allowance + 1) a).look [shape] := by
  revert hsilent
  rw [Grammar.body]
  split
  · intro hsilent
    exact absurd hsilent (Silent.not_cons rfl)
  · exact rules.stmt a (by omega)

/-- A condition in parentheses and the statement that it governs. -/
theorem derives_guarded {a : State} (hallowance : 8 * a.ahead.length + 6 ≤ allowance)
    (hsilent : Silent a (Grammar.body allowance (condition allowance a))) :
    ∃ guard body, Takes a (Grammar.body allowance (condition allowance a)) (guard ++ [body]) ∧
      Guard guard ∧ DerivesStmt .stmt (Grammar.body allowance (condition allowance a)).look
        [body] := by
  have hparts := hsilent.split (accounted_condition allowance a)
    ((stmtRules allowance).body _)
  rcases derives_condition (by omega) hparts.1 with ⟨guard, hguard, hderives⟩
  have hlength := hguard.length
  rcases rules.body _ (by omega) hparts.2 with ⟨body, hbody, hstmt⟩
  exact ⟨guard, body, hguard.trans hbody, hderives, hstmt⟩

theorem elseifClauses_succ (a : State) (hallowance : 8 * a.ahead.length + 1 ≤ allowance + 1)
    (hsilent : Silent a (Grammar.elseifClauses (allowance + 1) a)) :
    ∃ row, Takes a (Grammar.elseifClauses (allowance + 1) a) row ∧
      aheadKind (Grammar.elseifClauses (allowance + 1) a).look ≠ .elseifKw ∧
      ∀ look more, lookBefore more look = (Grammar.elseifClauses (allowance + 1) a).look →
        DerivesStmt .branches look more → DerivesStmt .branches look (row ++ more) := by
  revert hsilent
  rw [Grammar.elseifClauses]
  by_cases hat : a.isAt .elseifKw = true
  · rw [if_pos hat]
    intro hsilent
    rcases State.words_of_kind (beq_iff_eq.mp hat) (by decide) with ⟨keyword, rest, hwords, hkind⟩
    have hwords' : a.start.words = keyword :: rest := hwords
    have hahead : a.start.ahead.length = a.ahead.length := rfl
    have hbump := (Takes.bump hwords').1
    have hlength := hbump.length_word
    have hguarded := (accounted_condition allowance a.start.bump).trans
      ((stmtRules allowance).body _)
    have hclause := ((Accounted.bump a.start).trans hguarded).close
      (show Kind.elseifClause ≠ .tombstone by decide)
    -- The clause is closed first, and then the next ones are read.
    have hparts := hsilent.split hclause ((stmtRules allowance).elseifClauses _)
    have hinside : Silent a.start
        (Grammar.body allowance (condition allowance a.start.bump)) := hparts.1
    rcases rules.derives_guarded (by omega)
        (hinside.split (Accounted.bump _) hguarded).2 with ⟨guard, body, htakes, hguard, hbody⟩
    have hnode := ((hbump.trans htakes).close (show Kind.elseifClause ≠ .tombstone by decide)).takes
    have hlength' := hnode.length
    have hpos : 0 < (Shape.wordsOf [.node .elseifClause
        ([Shape.word keyword] ++ (guard ++ [body]))]).length := Nat.zero_lt_succ _
    rcases rules.elseifClauses _ (by omega) hparts.2 with ⟨row, hrow, hdone, hmore⟩
    refine ⟨_, hnode.trans hrow, hdone, fun look more hlook hderives => ?_⟩
    have hbranches := hmore look more hlook hderives
    -- The body ends in front of the other clauses, whichever rule has read them.
    have hnext : DerivesStmt .stmt (lookBefore (row ++ more) look) [body] := by
      rw [lookBefore_append, hlook, ← hrow.look]
      exact hbody
    exact .elseif hkind hguard hnext hbranches
  · rw [if_neg hat]
    intro _
    exact ⟨[], .refl a, State.aheadKind_ne hat, fun _ _ _ hderives => hderives⟩

theorem elseClause_succ (a : State) (hallowance : 8 * a.ahead.length + 1 ≤ allowance + 1)
    (hsilent : Silent a (Grammar.elseClause (allowance + 1) a))
    (helseif : aheadKind a.look ≠ .elseifKw) :
    ∃ row, Takes a (Grammar.elseClause (allowance + 1) a) row ∧
      DerivesStmt .branches (Grammar.elseClause (allowance + 1) a).look row := by
  revert hsilent
  rw [Grammar.elseClause]
  by_cases hat : a.isAt .elseKw = true
  · rw [if_pos hat]
    intro hsilent
    rcases State.words_of_kind (beq_iff_eq.mp hat) (by decide) with ⟨keyword, rest, hwords, hkind⟩
    have hwords' : a.start.words = keyword :: rest := hwords
    have hahead : a.start.ahead.length = a.ahead.length := rfl
    have hbump := (Takes.bump hwords').1
    have hlength := hbump.length_word
    have hinside : Silent a.start (Grammar.body allowance a.start.bump) := hsilent
    have hparts := hinside.split (Accounted.bump _) ((stmtRules allowance).body _)
    rcases rules.body _ (by omega) hparts.2 with ⟨body, hbody, hstmt⟩
    exact ⟨_, ((hbump.trans hbody).close (by decide)).takes, .otherwise hkind hstmt⟩
  · rw [if_neg hat]
    intro _
    exact ⟨[], .refl a, .noBranch helseif (State.aheadKind_ne hat)⟩

omit rules in
/-- A statement that a keyword begins is read behind it and closed. -/
theorem takes_keyword {a after : State} {keyword : Word} {rest : List Word} {kind : Kind}
    {row : List Shape} (hwords : a.words = keyword :: rest) (hkind : kind ≠ .tombstone)
    (hrow : Takes a.start.bump after row) :
    Takes a (after.close a.mark kind) [.node kind (.word keyword :: row)] := by
  have hwords' : a.start.words = keyword :: rest := hwords
  exact (((Takes.bump hwords').1.trans hrow).close hkind).takes

omit rules in
/-- Behind the keyword of a silent statement a token less is ahead, and what follows is silent. -/
theorem behind_keyword {a after : State} {kind : Kind} (hat : a.kind = kind)
    (hend : kind ≠ .endOfFile) (hallowance : 8 * a.ahead.length + 5 ≤ allowance + 1)
    (haccounted : Accounted a.start.bump after) (hsilent : Silent a.start after) :
    ∃ keyword rest, a.words = keyword :: rest ∧ keyword.kind = kind ∧
      8 * a.start.bump.ahead.length + 6 ≤ allowance ∧ Silent a.start.bump after := by
  rcases State.words_of_kind hat hend with ⟨keyword, rest, hwords, hkind⟩
  have hwords' : a.start.words = keyword :: rest := hwords
  have hahead : a.start.ahead.length = a.ahead.length := rfl
  have hlength := (Takes.bump hwords').1.length_word
  exact ⟨keyword, rest, hwords, hkind, by omega, (hsilent.split (Accounted.bump _) haccounted).2⟩

omit rules in
theorem derives_echo {a : State} (hat : a.kind = .echoKw)
    (hallowance : 8 * a.ahead.length + 5 ≤ allowance + 1)
    (hsilent : Silent a (echoStmt allowance a)) :
    ∃ shape, Takes a (echoStmt allowance a) [shape] ∧
      DerivesStmt .stmt (echoStmt allowance a).look [shape] := by
  have hlist := accounted_exprList allowance a.start.bump
  rcases behind_keyword hat (by decide) hallowance (hlist.trans (.expect _ .semicolon)) hsilent with
    ⟨keyword, rest, hwords, hkind, hfewer, hquiet⟩
  have hparts := hquiet.split hlist (.expect _ _)
  rcases hparts.2.expect (by decide) with ⟨stop, hstop, hlook, hexpect⟩
  rcases derives_exprList (by omega) hparts.1 with ⟨row, hrow, hexprs⟩
  rw [hlook] at hexprs
  exact ⟨_, takes_keyword hwords (by decide) (hrow.trans hexpect), .echo hkind hexprs hstop⟩

omit rules in
/-- `return`, `break` and `continue`, with a value or without one. -/
theorem derives_jump {a : State} {kind node : Kind} (hjump : jumpKind? kind = some node)
    (hend : kind ≠ .endOfFile) (hnode : node ≠ .tombstone) (hat : a.kind = kind)
    (hallowance : 8 * a.ahead.length + 5 ≤ allowance + 1)
    (hsilent : Silent a (jumpStmt node allowance a)) :
    ∃ shape, Takes a (jumpStmt node allowance a) [shape] ∧
      DerivesStmt .stmt (jumpStmt node allowance a).look [shape] := by
  have hvalue := accounted_optionalExpr allowance a.start.bump
  rcases behind_keyword hat hend hallowance (hvalue.trans (.expect _ .semicolon)) hsilent with
    ⟨keyword, rest, hwords, hkind, hfewer, hquiet⟩
  have hparts := hquiet.split hvalue (.expect _ _)
  rcases hparts.2.expect (by decide) with ⟨stop, hstop, hlook, hexpect⟩
  have hquiet' := hparts.1
  rw [jumpStmt]
  rw [optionalExpr] at hquiet' hlook hexpect ⊢
  by_cases hfirst : a.start.bump.isAtOneOf canStartExpr = true
  · rw [if_pos hfirst] at hquiet' hlook hexpect ⊢
    rcases derives_anyExpr (by omega) hquiet' with ⟨value, hvalue, hderives⟩
    rw [hlook] at hderives
    exact ⟨_, takes_keyword hwords hnode (hvalue.trans hexpect),
      .jumpWith (hkind ▸ hjump) hderives hstop⟩
  · rw [if_neg hfirst] at hquiet' hlook hexpect ⊢
    exact ⟨_, takes_keyword hwords hnode hexpect, .jump (hkind ▸ hjump) hstop⟩

omit rules in
theorem derives_exprStmt {a : State} (hallowance : 8 * a.ahead.length + 5 ≤ allowance + 1)
    (hsilent : Silent a (exprStmt allowance a)) :
    ∃ shape, Takes a (exprStmt allowance a) [shape] ∧
      DerivesStmt .stmt (exprStmt allowance a).look [shape] := by
  have hquiet : Silent a.start ((anyExpr allowance a.start).expect .semicolon) := hsilent
  have hahead : a.start.ahead.length = a.ahead.length := rfl
  have hparts := hquiet.split (accounted_anyExpr _ _) (.expect _ _)
  rcases hparts.2.expect (by decide) with ⟨stop, hstop, hlook, hexpect⟩
  rcases derives_anyExpr (by omega) hparts.1 with ⟨value, hvalue, hderives⟩
  rw [hlook] at hderives
  exact ⟨_, ((hvalue.trans hexpect).close (by decide)).takes, .expr hstop hderives⟩

theorem derives_choice {a : State} (hat : a.kind = .ifKw)
    (hallowance : 8 * a.ahead.length + 5 ≤ allowance + 1)
    (hsilent : Silent a ((Grammar.elseClause allowance (Grammar.elseifClauses allowance
      (Grammar.body allowance (condition allowance a.start.bump)))).close a.mark .ifStmt)) :
    ∃ shape, Takes a ((Grammar.elseClause allowance (Grammar.elseifClauses allowance
        (Grammar.body allowance (condition allowance a.start.bump)))).close a.mark .ifStmt)
        [shape] ∧
      DerivesStmt .stmt (Grammar.elseClause allowance (Grammar.elseifClauses allowance
        (Grammar.body allowance (condition allowance a.start.bump)))).look [shape] := by
  have hguarded := (accounted_condition allowance a.start.bump).trans
    ((stmtRules allowance).body _)
  have hclauses := (stmtRules allowance).elseifClauses
    (Grammar.body allowance (condition allowance a.start.bump))
  have helse (state : State) := (stmtRules allowance).elseClause state
  rcases behind_keyword hat (by decide) hallowance (hguarded.trans (hclauses.trans (helse _)))
    hsilent with ⟨keyword, rest, hwords, hkind, hfewer, hquiet⟩
  have hparts := hquiet.split hguarded (hclauses.trans (helse _))
  have hsplit := hparts.2.split hclauses (helse _)
  rcases rules.derives_guarded hfewer hparts.1 with ⟨guard, body, htakes, hguard, hbody⟩
  have hlength := htakes.length
  rcases rules.elseifClauses _ (by omega) hsplit.1 with ⟨row, hrow, hdone, hmore⟩
  have hlength' := hrow.length
  rcases rules.elseClause _ (by omega) hsplit.2 hdone with ⟨last, hlast, hbranches⟩
  -- The `elseif` clauses go in front of whatever the `else` rule has read.
  have hall := hmore _ _ hlast.look.symm hbranches
  rw [hrow.look, hlast.look, ← lookBefore_append] at hbody
  have htakes' := htakes.trans (hrow.trans hlast)
  rw [List.append_assoc, List.singleton_append] at htakes'
  exact ⟨_, takes_keyword hwords (by decide) htakes', .choice hkind hguard hbody hall⟩

/-- A loop, whose head is read by a rule of its own. -/
theorem derives_loop {a head : State} {kind node : Kind} (hloop : loopKind? kind = some node)
    (hend : kind ≠ .endOfFile) (hnode : node ≠ .tombstone) (hat : a.kind = kind)
    (hallowance : 8 * a.ahead.length + 5 ≤ allowance + 1)
    (haccounted : Accounted a.start.bump head)
    (hhead : 8 * a.start.bump.ahead.length ≤ allowance → Silent a.start.bump head →
      ∃ row, Takes a.start.bump head row ∧ LoopHead node row)
    (hsilent : Silent a ((Grammar.body allowance head).close a.mark node)) :
    ∃ shape, Takes a ((Grammar.body allowance head).close a.mark node) [shape] ∧
      DerivesStmt .stmt (Grammar.body allowance head).look [shape] := by
  have hbody := (stmtRules allowance).body head
  rcases behind_keyword hat hend hallowance (haccounted.trans hbody) hsilent with
    ⟨keyword, rest, hwords, hkind, hfewer, hquiet⟩
  have hparts := hquiet.split haccounted hbody
  rcases hhead (by omega) hparts.1 with ⟨row, hrow, hderives⟩
  have hlength := hrow.length
  rcases rules.body head (by omega) hparts.2 with ⟨body, hbody, hstmt⟩
  exact ⟨_, takes_keyword hwords hnode (hrow.trans hbody), .loop (hkind ▸ hloop) hderives hstmt⟩

theorem derives_doWhile {a : State} (hat : a.kind = .doKw)
    (hallowance : 8 * a.ahead.length + 5 ≤ allowance + 1)
    (hsilent : Silent a (((condition allowance ((Grammar.body allowance a.start.bump).expect
      .whileKw)).expect .semicolon).close a.mark .doWhileStmt)) :
    ∃ shape, Takes a (((condition allowance ((Grammar.body allowance a.start.bump).expect
        .whileKw)).expect .semicolon).close a.mark .doWhileStmt) [shape] ∧
      ∀ look, DerivesStmt .stmt look [shape] := by
  have hbody := (stmtRules allowance).body a.start.bump
  have hcondition := accounted_condition allowance
    ((Grammar.body allowance a.start.bump).expect .whileKw)
  have hrest := (Accounted.expect _ _).trans (hcondition.trans (.expect _ .semicolon))
  rcases behind_keyword hat (by decide) hallowance (hbody.trans hrest) hsilent with
    ⟨keyword, rest, hwords, hkind, hfewer, hquiet⟩
  -- The statement is taken apart at its body, the second keyword and the condition.
  have hparts := hquiet.split hbody hrest
  have hsplit := hparts.2.split (Accounted.expect _ _) (hcondition.trans (.expect _ _))
  have hlast := hsplit.2.split hcondition (.expect _ _)
  rcases rules.body _ hfewer hparts.1 with ⟨body, htakes, hstmt⟩
  rcases hsplit.1.expect (by decide) with ⟨again, hagain, hlook, hexpect⟩
  rcases hlast.2.expect (by decide) with ⟨stop, hstop, _, hsemicolon⟩
  have hlength := htakes.length
  have hlength' := hexpect.length
  rcases derives_condition (by omega) hlast.1 with ⟨guard, hguard, hderives⟩
  rw [hlook] at hstmt
  exact ⟨_, takes_keyword hwords (by decide) (htakes.trans (hexpect.trans
    (hguard.trans hsemicolon))), fun _ => .doWhile hkind hstmt hagain hderives hstop⟩

theorem derives_function {a : State} (hat : a.kind = .functionKw)
    (hallowance : 8 * a.ahead.length + 5 ≤ allowance + 1)
    (hsilent : Silent a ((if (functionHead allowance a.start.bump).isAt .leftBrace
      then Grammar.block allowance (functionHead allowance a.start.bump)
      else (functionHead allowance a.start.bump).report "expected function body").close a.mark
        .functionDef)) :
    ∃ shape, Takes a ((if (functionHead allowance a.start.bump).isAt .leftBrace
        then Grammar.block allowance (functionHead allowance a.start.bump)
        else (functionHead allowance a.start.bump).report "expected function body").close a.mark
          .functionDef) [shape] ∧
      ∀ look, DerivesStmt .stmt look [shape] := by
  have hhead := accounted_functionHead allowance a.start.bump
  by_cases hbrace : (functionHead allowance a.start.bump).isAt .leftBrace = true
  · rw [if_pos hbrace] at hsilent ⊢
    have hblock := (stmtRules allowance).block (functionHead allowance a.start.bump)
    rcases behind_keyword hat (by decide) hallowance (hhead.trans hblock) hsilent with
      ⟨keyword, rest, hwords, hkind, hfewer, hquiet⟩
    have hparts := hquiet.split hhead hblock
    rcases derives_functionHead (by omega) hparts.1 with ⟨head, htakes, hderives⟩
    rcases State.words_of_kind (beq_iff_eq.mp hbrace) (by decide) with
      ⟨opening, more, hwords', hopening⟩
    have hlength := htakes.length
    rcases rules.block _ opening more hwords' (by omega) hparts.2 with
      ⟨closing, row, hclosing, hrow, hstmts⟩
    rw [State.look_of_words hwords'] at hderives
    exact ⟨_, takes_keyword hwords (by decide) (htakes.trans hrow), fun _ =>
      .function hkind hderives hopening hclosing hstmts⟩
  · -- Without a brace the missing body is reported.
    rw [if_neg hbrace] at hsilent
    rcases behind_keyword hat (by decide) hallowance (hhead.trans (.report _ _)) hsilent with
      ⟨keyword, rest, hwords, hkind, hfewer, hquiet⟩
    exact absurd (hquiet.split hhead (.report _ _)).2 (Silent.not_cons rfl)

/-- One case for each first token: what a keyword begins is read by the rule behind it. -/
theorem stmt_succ (a : State) (hallowance : 8 * a.ahead.length + 5 ≤ allowance + 1)
    (hsilent : Silent a (Grammar.stmt (allowance + 1) a)) :
    ∃ shape, Takes a (Grammar.stmt (allowance + 1) a) [shape] ∧
      DerivesStmt .stmt (Grammar.stmt (allowance + 1) a).look [shape] := by
  revert hsilent
  rw [Grammar.stmt]
  dsimp only
  split <;> rename_i hat <;> intro hsilent
  · rcases State.words_of_kind hat (by decide) with ⟨opening, rest, hwords, hkind⟩
    rcases rules.block a opening rest hwords (by omega) hsilent with
      ⟨closing, row, hclosing, hblock, hstmts⟩
    exact ⟨_, hblock, .block hkind hclosing hstmts⟩
  · exact derives_echo hat hallowance hsilent
  · exact derives_jump rfl (by decide) (by decide) hat hallowance hsilent
  · exact derives_jump rfl (by decide) (by decide) hat hallowance hsilent
  · exact derives_jump rfl (by decide) (by decide) hat hallowance hsilent
  · exact rules.derives_choice hat hallowance hsilent
  · refine rules.derives_loop rfl (by decide) (by decide) hat hallowance
      (accounted_condition _ _) (fun hfewer hquiet => ?_) hsilent
    rcases derives_condition hfewer hquiet with ⟨guard, htakes, hguard⟩
    exact ⟨guard, htakes, .whileHead hguard⟩
  · rcases rules.derives_doWhile hat hallowance hsilent with ⟨shape, htakes, hderives⟩
    exact ⟨shape, htakes, hderives _⟩
  · exact rules.derives_loop rfl (by decide) (by decide) hat hallowance
      (accounted_forHead _ _) derives_forHead hsilent
  · exact rules.derives_loop rfl (by decide) (by decide) hat hallowance
      (accounted_foreachHead _ _) derives_foreachHead hsilent
  · rcases rules.derives_function hat hallowance hsilent with ⟨shape, htakes, hderives⟩
    exact ⟨shape, htakes, hderives _⟩
  · rcases State.words_of_kind hat (by decide) with ⟨stop, rest, hwords, hkind⟩
    exact ⟨_, takes_keyword hwords (by decide) (.refl _), .empty hkind⟩
  · exact absurd hsilent (Silent.not_reject (.refl _))
  · -- No keyword: an expression, if its first token can begin one.
    split at hsilent <;> rename_i hfirst
    · rw [if_pos hfirst]
      exact derives_exprStmt hallowance hsilent
    · exact absurd hsilent (Silent.not_reject (.refl _))

end SoundStmtRules

/-- What the rules for statements read silently, the grammar derives. -/
theorem soundStmtRules (allowance : Nat) : SoundStmtRules allowance := by
  induction allowance with
  | zero => exact .zero
  | succ allowance rules =>
    exact ⟨rules.stmtList_succ, rules.stmt_succ, rules.block_succ, rules.body_succ,
      rules.elseifClauses_succ, rules.elseClause_succ⟩

end Grammar

end PhpAssist

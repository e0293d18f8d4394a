import PhpAssist.Proofs.Completeness
import PhpAssist.Proofs.StmtSoundness

/-!
# Grammatical statements are read silently

What the grammar derives as a statement, the parser reads as this statement and reports nothing.
As for expressions the induction is on the derivation, and the allowance is in proportion to the
tokens ahead.

The two rules for the clauses behind a condition are called one after the other, and what is shown
of a row of clauses is what both of them do together.

## Main definitions

* `Grammar.CompleteStmt`: What is shown of a row in each place outside of expressions.

## Theorems

* `Grammar.DerivesStmt.begins`: How a derived statement begins.
* `Grammar.complete_derivesStmt`: A derived row of statements is read silently.
-/

namespace PhpAssist

namespace Grammar

/-! ## Parts of statements -/

section Parts

variable {allowance : Nat} {a : State} {look : Option Word} {rest : List Word}

/-- A derived expression is read. -/
theorem takes_anyExpr {value : Shape} (hvalue : Derives (.expr 0) look [value])
    (hwords : a.words = value.words ++ rest) (hrest : rest.head? = look)
    (hallowance : 8 * a.ahead.length + 4 ≤ allowance) : Takes a (anyExpr allowance a) [value] :=
  ((complete_derives hvalue value rfl allowance a rest hwords hrest hallowance).rest hwords).1

/-- A row of one shape is ahead where the shape is. -/
theorem State.words_of_shape {value : Shape} (hwords : a.words = value.words ++ rest) :
    a.words = Shape.wordsOf [value] ++ rest := by
  rw [hwords, Shape.wordsOf_cons, Shape.wordsOf_nil, List.append_nil]

/-- Expressions with commas between them are read up to the word that comes behind them. -/
theorem takes_exprs {row : List Shape} (h : Exprs look row)
    (hwords : a.words = Shape.wordsOf row ++ rest) (hrest : rest.head? = look) {count : Nat}
    (hcount : 8 * a.ahead.length + 1 ≤ count) (hallowance : 8 * a.ahead.length + 4 ≤ allowance) :
    Takes a (commaSeparated (anyExpr allowance) count (anyExpr allowance a)) row := by
  -- By induction on the values: each round reads a comma and one value behind it.
  induction h generalizing a count with
  | one hvalue hlook =>
    rw [Shape.wordsOf_cons, Shape.wordsOf_nil, List.append_nil] at hwords
    have hread := takes_anyExpr hvalue hwords hrest hallowance
    have hat : (anyExpr allowance a).isAt .comma = false := by
      rw [State.isAt, State.kind_eq_aheadKind, State.look,
        hread.rest (State.words_of_shape hwords), hrest]
      exact beq_eq_false_iff_ne.mpr hlook
    -- The rule asks once more and finds no comma.
    rcases count with _ | count
    · omega
    rw [commaSeparated, hat, if_neg Bool.false_ne_true]
    exact hread
  | more hvalue hcomma _ ih =>
    simp only [Shape.wordsOf_cons, Shape.words_word, List.append_assoc, List.cons_append,
      List.nil_append] at hwords
    have hread := takes_anyExpr hvalue hwords rfl hallowance
    have hbehind := hread.rest (State.words_of_shape hwords)
    have hat : (anyExpr allowance a).isAt .comma = true := State.isAt_of_kind hbehind hcomma
    have hbump := Takes.bump hbehind
    have hle := hread.length_le
    have hless := State.ahead_bump_lt hbehind
    rcases count with _ | count
    · omega
    have hmore := ih hbump.2 (show _ ≤ count by omega) (by omega)
    rw [commaSeparated, if_pos hat]
    exact hread.trans (hbump.1.trans hmore)

theorem takes_exprList {row : List Shape} (h : Exprs look row)
    (hwords : a.words = Shape.wordsOf row ++ rest) (hrest : rest.head? = look)
    (hallowance : 8 * a.ahead.length + 4 ≤ allowance) : Takes a (exprList allowance a) row :=
  takes_exprs h hwords hrest (by omega) hallowance

theorem Exprs.begins {row : List Shape} (h : Exprs look row) : BeginsWith row ExprStart := by
  cases h with
  | one hvalue _ => exact hvalue.begins
  | more hvalue _ _ => exact BeginsWith.append hvalue.begins

/-- A condition in parentheses is read. -/
theorem takes_condition {row : List Shape} (h : Guard row)
    (hwords : a.words = Shape.wordsOf row ++ rest) (hallowance : 8 * a.ahead.length ≤ allowance) :
    Takes a (condition allowance a) row := by
  cases h with
  | mk hopening hclosing hinner =>
    simp only [Shape.wordsOf_cons, Shape.wordsOf_nil, Shape.words_word, List.append_nil,
      List.append_assoc, List.cons_append, List.nil_append] at hwords
    have hopen := Takes.expect_of_words hwords hopening
    have hless := hopen.1.length
    simp only [Shape.wordsOf_cons, Shape.wordsOf_nil, Shape.words_word, List.append_nil,
      List.length_cons, List.length_nil] at hless
    have hread := takes_anyExpr hinner hopen.2 rfl (show _ ≤ allowance by omega)
    have hbehind := hread.rest (State.words_of_shape hopen.2)
    exact hopen.1.trans (hread.trans (Takes.expect_of_words hbehind hclosing).1)

/-- A part in the head of a `for` loop is read with its terminator. -/
theorem takes_forPart {terminator : Kind} (hterminator : canStartExpr.contains terminator = false)
    {row : List Shape} (h : ForPart terminator row)
    (hwords : a.words = Shape.wordsOf row ++ rest)
    (hallowance : 8 * a.ahead.length + 4 ≤ allowance) :
    Takes a (forPart allowance a terminator) row ∧
      (forPart allowance a terminator).words = rest := by
  suffices hread : Takes a (forPart allowance a terminator) row from
    ⟨hread, hread.rest hwords⟩
  -- The end of a part is no token that an expression begins with, so the rule sees which it is.
  rw [forPart]
  cases h with
  | empty hstop =>
    have hat : a.isAt terminator = true := State.isAt_of_kind hwords hstop
    rw [if_pos hat]
    exact (Takes.expect_of_words hwords hstop).1
  | exprs hrow hstop =>
    simp only [Shape.wordsOf_append, Shape.wordsOf_cons, Shape.wordsOf_nil, Shape.words_word,
      List.append_nil, List.append_assoc, List.cons_append, List.nil_append] at hwords
    rw [if_neg (State.not_isAt_of_begins hterminator hrow.begins hwords)]
    have hread := takes_exprList hrow hwords rfl hallowance
    exact hread.trans (Takes.expect_of_words (hread.rest hwords) hstop).1

/-- The values behind `as` are read. -/
theorem takes_target {row : List Shape} (h : EachTarget look row)
    (hwords : a.words = Shape.wordsOf row ++ rest) (hrest : rest.head? = look)
    (hallowance : 8 * a.ahead.length + 4 ≤ allowance) :
    Takes a (arrowValue (expr allowance 0) (anyExpr allowance a)) row := by
  cases h with
  | value hvalue hlook =>
    rw [Shape.wordsOf_cons, Shape.wordsOf_nil, List.append_nil] at hwords
    have hread := takes_anyExpr hvalue hwords hrest hallowance
    have hat : (anyExpr allowance a).isAt .fatArrow = false := by
      rw [State.isAt, State.kind_eq_aheadKind, State.look,
        hread.rest (State.words_of_shape hwords), hrest]
      exact beq_eq_false_iff_ne.mpr hlook
    -- The target ends where no `=>` follows.
    rw [arrowValue, hat, if_neg Bool.false_ne_true]
    exact hread
  | keyed hkey harrow hvalue =>
    simp only [Shape.wordsOf_cons, Shape.wordsOf_nil, Shape.words_word, List.append_nil,
      List.append_assoc, List.cons_append, List.nil_append] at hwords
    have hread := takes_anyExpr hkey hwords rfl hallowance
    have hbehind := hread.rest (State.words_of_shape hwords)
    have hle := hread.length_le
    have hat : (anyExpr allowance a).isAt .fatArrow = true := State.isAt_of_kind hbehind harrow
    rw [arrowValue, if_pos hat]
    exact hread.trans (Complete.behind (complete_derives hvalue) hbehind hrest (by omega))

/-- The head of a loop is read by the rule for its kind. -/
theorem takes_whileHead {row : List Shape} (h : LoopHead .whileStmt row)
    (hwords : a.words = Shape.wordsOf row ++ rest) (hallowance : 8 * a.ahead.length ≤ allowance) :
    Takes a (condition allowance a) row := by
  cases h with
  | whileHead hrow => exact takes_condition hrow hwords hallowance

theorem takes_forHead {row : List Shape} (h : LoopHead .forStmt row)
    (hwords : a.words = Shape.wordsOf row ++ rest) (hallowance : 8 * a.ahead.length ≤ allowance) :
    Takes a (forHead allowance a) row := by
  rw [forHead_eq]
  cases h with
  | forHead hopening hfirst hsecond hthird =>
    simp only [Shape.wordsOf_cons, Shape.wordsOf_append, Shape.words_word, List.append_assoc,
      List.cons_append, List.nil_append] at hwords
    have hopen := Takes.expect_of_words hwords hopening
    have hless := hopen.1.length
    simp only [Shape.wordsOf_cons, Shape.wordsOf_nil, Shape.words_word, List.append_nil,
      List.length_cons, List.length_nil] at hless
    -- The parts are read one behind the other, each by what the ones before it have left.
    have hone := takes_forPart rfl hfirst hopen.2 (show _ ≤ allowance by omega)
    have hle := hone.1.length_le
    have htwo := takes_forPart rfl hsecond hone.2 (show _ ≤ allowance by omega)
    have hle' := htwo.1.length_le
    have hthree := takes_forPart rfl hthird htwo.2 (show _ ≤ allowance by omega)
    exact hopen.1.trans ((hone.1.trans htwo.1).trans hthree.1)

theorem takes_foreachHead {row : List Shape} (h : LoopHead .foreachStmt row)
    (hwords : a.words = Shape.wordsOf row ++ rest) (hallowance : 8 * a.ahead.length ≤ allowance) :
    Takes a (foreachHead allowance a) row := by
  cases h with
  | eachHead hopening hsubject hseparator htarget hclosing =>
    simp only [Shape.wordsOf_cons, Shape.wordsOf_append, Shape.wordsOf_nil, Shape.words_word,
      List.append_nil, List.append_assoc, List.cons_append, List.nil_append] at hwords
    have hopen := Takes.expect_of_words hwords hopening
    have hless := hopen.1.length
    simp only [Shape.wordsOf_cons, Shape.wordsOf_nil, Shape.words_word, List.append_nil,
      List.length_cons, List.length_nil] at hless
    have hread := takes_anyExpr hsubject hopen.2 rfl (show _ ≤ allowance by omega)
    have hbehind := hread.rest (State.words_of_shape hopen.2)
    have hle := hread.length_le
    have has := Takes.expect_of_words hbehind hseparator
    have hle' := has.1.length_le
    have heach := takes_target htarget has.2 rfl (show _ ≤ allowance by omega)
    have hclose := Takes.expect_of_words (heach.rest has.2) hclosing
    exact hopen.1.trans (hread.trans (has.1.trans (heach.trans hclose.1)))

theorem takes_functionName {row : List Shape} (h : FunctionName row)
    (hwords : a.words = Shape.wordsOf row ++ rest) : Takes a (functionName a) row := by
  have hread : (if a.isAtText .operator "&" then a.bump else a).isAt .name = true ∧
      Takes a (if a.isAtText .operator "&" then a.bump else a).bump row := by
    cases h with
    | plain hname => exact Complete.marked hname (by decide) (.inl rfl) hwords
    | marked hmark hname =>
      exact Complete.marked hname (by decide) (.inr ⟨_, hmark, rfl⟩) hwords
  rw [functionName, if_pos hread.1]
  exact hread.2

theorem takes_resultType {row : List Shape} (h : ResultType look row)
    (hwords : a.words = Shape.wordsOf row ++ rest) (hrest : rest.head? = look)
    (hallowance : 8 * a.ahead.length + 1 ≤ allowance) : Takes a (resultType allowance a) row := by
  rw [resultType]
  cases h with
  | none hlook =>
    have hat : a.isAt .colon = false := by
      rw [State.isAt, State.kind_eq_aheadKind, State.look, hwords, Shape.wordsOf_nil,
        List.nil_append, hrest]
      exact beq_eq_false_iff_ne.mpr hlook
    rw [hat, if_neg Bool.false_ne_true]
    exact .refl a
  | some hcolon htype =>
    simp only [Shape.wordsOf_cons, Shape.wordsOf_nil, Shape.words_word, List.append_nil,
      List.cons_append, List.nil_append] at hwords
    have hat : a.isAt .colon = true := State.isAt_of_kind hwords hcolon
    have hbump := Takes.bump hwords
    have hle := hbump.1.length_le
    rw [if_pos hat]
    exact hbump.1.trans (Complete.typeRef htype hbump.2 hrest (by omega))

theorem takes_functionHead {row : List Shape} (h : FunctionHead look row)
    (hwords : a.words = Shape.wordsOf row ++ rest) (hrest : rest.head? = look)
    (hallowance : 8 * a.ahead.length ≤ allowance) : Takes a (functionHead allowance a) row := by
  cases h with
  | @mk opening closing name params result hname hopening hrow hclosing hresult =>
    simp only [Shape.wordsOf_append, Shape.wordsOf_cons, Shape.words_node, Shape.wordsOf_nil,
      Shape.words_word, List.append_nil, List.append_assoc, List.cons_append,
      List.nil_append] at hwords
    have hnamed := takes_functionName hname hwords
    have hbehind := hnamed.rest hwords
    have hle := hnamed.length_le
    -- The parameters stand behind the name, in brackets of their own.
    have hat : (functionName a).isAt .leftParen = true := State.isAt_of_kind hbehind hopening
    have hlist := (Complete.delimited hclosing (complete_derives hrow)
      (show (functionName a).start.words = _ from hbehind)
      (show 8 * (functionName a).ahead.length ≤ allowance by omega)).close
        (show Kind.paramList ≠ .tombstone by decide)
    have hparams : Takes (functionName a) (functionParams allowance (functionName a))
        [.node .paramList (.word opening :: (params ++ [Shape.word closing]))] := by
      rw [functionParams, if_pos hat]
      exact hlist.takes
    -- What the result type is read from is what the brackets have left.
    have hlength := hparams.length
    have hbehind' : (functionParams allowance (functionName a)).words =
        Shape.wordsOf result ++ rest := by
      refine hparams.rest ?_
      simp only [hbehind, Shape.wordsOf_append, Shape.wordsOf_cons, Shape.words_node,
        Shape.wordsOf_nil, Shape.words_word, List.append_nil, List.append_assoc, List.cons_append,
        List.nil_append]
    simp only [Shape.wordsOf_cons, Shape.words_node, Shape.words_word, List.length_append,
      List.length_cons] at hlength
    exact hnamed.trans (hparams.trans (takes_resultType hresult hbehind' hrest (by omega)))

end Parts

/-! ## Statements -/

/-- The tokens that no statement begins with, and that tell what comes before or behind one. -/
def besideStmt : KindSet := .ofList [.rightBrace, .endOfFile, .elseifKw, .elseKw, .openTag]

/-- The kinds that a statement may begin with are none of these. -/
def StmtStart (kind : Kind) : Prop := besideStmt.contains kind = false

theorem StmtStart.ne {kind other : Kind} (h : StmtStart kind)
    (hother : besideStmt.contains other = true) : kind ≠ other := by
  intro heq
  rw [StmtStart, heq, hother] at h
  exact absurd h.symm Bool.false_ne_true

/-- How a row in a place begins. The other rows may be empty. -/
def Part.Begins (row : List Shape) : Part → Prop
  | .stmt => BeginsWith row StmtStart
  | .stmts | .branches => True

theorem ExprStart.stmtStart {kind : Kind} (h : ExprStart kind) : StmtStart kind := by
  revert h
  rw [ExprStart, StmtStart]
  cases kind <;> decide

/-- How a derived statement begins. -/
theorem DerivesStmt.begins {part : Part} {look : Option Word} {row : List Shape}
    (h : DerivesStmt part look row) : part.Begins row := by
  have hword {word : Word} {kind node : Kind} {more : List Shape} (hkind : word.kind = kind)
      (hstart : StmtStart kind) : BeginsWith [.node node (.word word :: more)] StmtStart :=
    .node (.word (hkind ▸ hstart))
  have hfirst {word : Word} {node : Kind} {more : List Shape} (hstart : StmtStart word.kind) :
      BeginsWith [.node node (.word word :: more)] StmtStart := hword rfl hstart
  have hjump {kind node : Kind} (hkind : jumpKind? kind = some node) : StmtStart kind := by
    rcases keyword_of_jumpKind? hkind with ⟨rfl, _⟩ | ⟨rfl, _⟩ | ⟨rfl, _⟩ <;> rfl
  have hloop {kind node : Kind} (hkind : loopKind? kind = some node) : StmtStart kind := by
    rcases keyword_of_loopKind? hkind with ⟨rfl, _⟩ | ⟨rfl, _⟩ | ⟨rfl, _⟩ <;> rfl
  -- All but a list of statements and the clauses behind a condition begin with a word of their own.
  cases h with
  | block hopening _ _ => exact hword hopening rfl
  | expr _ hvalue => exact .node_cons (hvalue.begins.mono fun _ h => h.stmtStart)
  | echo hkeyword _ _ => exact hword hkeyword rfl
  | jump hkeyword _ => exact hfirst (hjump hkeyword)
  | jumpWith hkeyword _ _ => exact hfirst (hjump hkeyword)
  | choice hkeyword _ _ _ => exact hword hkeyword rfl
  | loop hkeyword _ _ => exact hfirst (hloop hkeyword)
  | doWhile hkeyword _ _ _ _ =>
    exact hword hkeyword rfl
  | function hkeyword _ _ _ _ =>
    exact hword hkeyword rfl
  | empty hstop => exact hword hstop rfl
  | nil | cons | noBranch | elseif | otherwise => trivial

/-- What is shown of a row in each place. -/
def CompleteStmt : Part → Option Word → List Shape → Prop
  | .stmt, look, row => ∀ shape, row = [shape] → ∀ allowance a rest,
    a.words = shape.words ++ rest → rest.head? = look → 8 * a.ahead.length + 5 ≤ allowance →
      Takes a (stmt allowance a) [shape]
  | .stmts, look, row => ∀ closing allowance a rest, a.words = Shape.wordsOf row ++ rest →
    rest.head? = look → aheadKind look = closing →
      closing = .rightBrace ∨ closing = .endOfFile → 8 * a.ahead.length + 6 ≤ allowance →
        Takes a (stmtList closing allowance a) row
  | .branches, look, row => ∀ count allowance a rest, a.words = Shape.wordsOf row ++ rest →
    rest.head? = look → 8 * a.ahead.length + 1 ≤ count → 8 * a.ahead.length + 1 ≤ allowance →
      Takes a (elseClause allowance (elseifClauses count a)) row

/-- The word that comes behind something is the first of a row and of what comes behind the row. -/
theorem head?_wordsOf_append (row : List Shape) {rest : List Word} {look : Option Word}
    (hrest : rest.head? = look) : (Shape.wordsOf row ++ rest).head? = lookBefore row look := by
  rw [List.head?_append, hrest, lookBefore]

namespace CompleteStmt

variable {look : Option Word}

/-- A statement that something governs is read. -/
theorem body {shape : Shape} (hbegins : BeginsWith [shape] StmtStart)
    (hstmt : CompleteStmt .stmt look [shape]) {allowance : Nat} {a : State} {rest : List Word}
    (hwords : a.words = shape.words ++ rest) (hrest : rest.head? = look)
    (hallowance : 8 * a.ahead.length + 6 ≤ allowance) :
    Takes a (Grammar.body allowance a) [shape] ∧ (Grammar.body allowance a).words = rest := by
  suffices hread : Takes a (Grammar.body allowance a) [shape] from
    ⟨hread, hread.rest (State.words_of_shape hwords)⟩
  rcases State.words_of_begins hbegins (State.words_of_shape hwords) with
    ⟨word, more, hword, hstart⟩
  -- A statement begins neither with `}` nor with the end, so the body is not missing.
  have hbrace : word.kind ≠ .rightBrace := hstart.ne rfl
  have hend : word.kind ≠ .endOfFile := hstart.ne rfl
  rcases allowance with _ | allowance
  · omega
  have hat : (a.isAt .rightBrace || a.isAt .endOfFile) = false := by
    rw [State.isAt_of_words hword, State.isAt_of_words hword, beq_eq_false_iff_ne.mpr hbrace,
      beq_eq_false_iff_ne.mpr hend]
    rfl
  rw [Grammar.body, hat, if_neg Bool.false_ne_true]
  exact hstmt shape rfl allowance a rest hwords hrest (by omega)

/-- A block is read, brackets included. -/
theorem inBraces {opening closing : Word} {row : List Shape} (hclosing : closing.kind = .rightBrace)
    (hrow : CompleteStmt .stmts (some closing) row) {allowance : Nat} {a : State}
    {rest : List Word} (hwords : a.words = opening :: (Shape.wordsOf row ++ closing :: rest))
    (hallowance : 8 * a.ahead.length + 1 ≤ allowance) :
    Takes a (Grammar.block allowance a)
      [.node .block (.word opening :: (row ++ [Shape.word closing]))] := by
  rcases allowance with _ | allowance
  · omega
  have hwords' : a.start.words = opening :: (Shape.wordsOf row ++ closing :: rest) := hwords
  have hahead : a.start.ahead.length = a.ahead.length := rfl
  have hbump := Takes.bump hwords'
  have hless := State.ahead_bump_lt hwords'
  have hread := hrow .rightBrace allowance a.start.bump (closing :: rest) hbump.2 rfl hclosing
    (.inl rfl) (by omega)
  have hclose := Takes.expect_of_words (hread.rest hbump.2) hclosing
  rw [Grammar.block]
  exact ((hbump.1.trans (hread.trans hclose.1)).close (by decide)).takes

theorem block {opening closing : Word} {row : List Shape} (hopening : opening.kind = .leftBrace)
    (hclosing : closing.kind = .rightBrace) (hrow : CompleteStmt .stmts (some closing) row) :
    CompleteStmt .stmt look [.node .block (.word opening :: (row ++ [Shape.word closing]))] := by
  intro shape hshape allowance a rest hwords _ hallowance
  rcases hshape
  rcases allowance with _ | allowance
  · omega
  simp only [Shape.words_node, Shape.wordsOf_cons, Shape.wordsOf_append, Shape.wordsOf_nil,
    Shape.words_word, List.append_nil, List.cons_append, List.append_assoc,
    List.nil_append] at hwords
  rw [stmt, State.kind_of_words hwords, hopening]
  exact inBraces hclosing hrow hwords (by omega)

theorem expr {stop : Word} {value : Shape} (hstop : stop.kind = .semicolon)
    (hvalue : Derives (.expr 0) (some stop) [value]) :
    CompleteStmt .stmt look [.node .exprStmt [value, .word stop]] := by
  intro shape hshape allowance a rest hwords _ hallowance
  rcases hshape
  rcases allowance with _ | allowance
  · omega
  simp only [Shape.words_node, Shape.wordsOf_cons, Shape.wordsOf_nil, Shape.words_word,
    List.append_nil, List.append_assoc, List.cons_append, List.nil_append] at hwords
  rcases State.words_of_begins hvalue.begins (State.words_of_shape hwords) with
    ⟨word, more, hword, hstart⟩
  have hwords' : a.start.words = value.words ++ stop :: rest := hwords
  have hahead : a.start.ahead.length = a.ahead.length := rfl
  have hread := takes_anyExpr hvalue hwords' rfl (show _ ≤ allowance by omega)
  have hclose := Takes.expect_of_words (hread.rest (State.words_of_shape hwords')) hstop
  have hexpr : Takes a (exprStmt allowance a) [.node .exprStmt [value, .word stop]] :=
    ((hread.trans hclose.1).close (by decide)).takes
  have hfirst : a.isAtOneOf canStartExpr = true := by
    rw [State.isAtOneOf_of_words hword]
    exact hstart
  have hkind := State.kind_of_words hword
  rw [stmt]
  dsimp only
  -- No keyword begins an expression, and no other token that a statement is told by.
  split
  case h_14 =>
    rw [if_pos hfirst]
    exact hexpr
  all_goals
    rename_i hat
    rw [ExprStart, ← hkind, hat] at hstart
    exact absurd hstart (by decide)

theorem echo {keyword stop : Word} {row : List Shape} (hkeyword : keyword.kind = .echoKw)
    (hrow : Exprs (some stop) row) (hstop : stop.kind = .semicolon) :
    CompleteStmt .stmt look [.node .echoStmt (.word keyword :: (row ++ [Shape.word stop]))] := by
  intro shape hshape allowance a rest hwords _ hallowance
  rcases hshape
  rcases allowance with _ | allowance
  · omega
  simp only [Shape.words_node, Shape.wordsOf_cons, Shape.wordsOf_append, Shape.wordsOf_nil,
    Shape.words_word, List.append_nil, List.append_assoc, List.cons_append,
    List.nil_append] at hwords
  have hwords' : a.start.words = keyword :: (Shape.wordsOf row ++ stop :: rest) := hwords
  have hahead : a.start.ahead.length = a.ahead.length := rfl
  have hbump := Takes.bump hwords'
  have hless := State.ahead_bump_lt hwords'
  have hread := takes_exprList hrow hbump.2 rfl (show _ ≤ allowance by omega)
  have hclose := Takes.expect_of_words (hread.rest hbump.2) hstop
  rw [stmt, State.kind_of_words hwords, hkeyword]
  exact SoundStmtRules.takes_keyword hwords (by decide) (hread.trans hclose.1)

/-- The rule for a jump is the one for its keyword. -/
theorem stmt_jump {keyword : Word} {kind : Kind} {a : State} {words : List Word}
    (hkeyword : jumpKind? keyword.kind = some kind) (hwords : a.words = keyword :: words)
    (allowance : Nat) : stmt (allowance + 1) a = jumpStmt kind allowance a ∧ kind ≠ .tombstone := by
  rw [stmt, State.kind_of_words hwords]
  rcases keyword_of_jumpKind? hkeyword with ⟨hkind, rfl⟩ | ⟨hkind, rfl⟩ | ⟨hkind, rfl⟩
  all_goals
    rw [hkind]
    exact ⟨rfl, by decide⟩

theorem jump {keyword stop : Word} {kind : Kind} (hkeyword : jumpKind? keyword.kind = some kind)
    (hstop : stop.kind = .semicolon) :
    CompleteStmt .stmt look [.node kind [.word keyword, .word stop]] := by
  intro shape hshape allowance a rest hwords _ hallowance
  rcases hshape
  rcases allowance with _ | allowance
  · omega
  have hwords' : a.start.words = keyword :: stop :: rest := hwords
  have hbump := Takes.bump hwords'
  -- No value can begin with `;`.
  have hfirst : a.start.bump.isAtOneOf canStartExpr = false := by
    rw [State.isAtOneOf_of_words hbump.2, hstop]
    rfl
  rcases stmt_jump hkeyword hwords allowance with ⟨hstmt, hne⟩
  rw [hstmt, jumpStmt, optionalExpr, hfirst, if_neg Bool.false_ne_true]
  exact SoundStmtRules.takes_keyword hwords hne (Takes.expect_of_words hbump.2 hstop).1

theorem jumpWith {keyword stop : Word} {kind : Kind} {value : Shape}
    (hkeyword : jumpKind? keyword.kind = some kind)
    (hvalue : Derives (.expr 0) (some stop) [value]) (hstop : stop.kind = .semicolon) :
    CompleteStmt .stmt look [.node kind [.word keyword, value, .word stop]] := by
  intro shape hshape allowance a rest hwords _ hallowance
  rcases hshape
  rcases allowance with _ | allowance
  · omega
  simp only [Shape.words_node, Shape.wordsOf_cons, Shape.wordsOf_nil, Shape.words_word,
    List.append_nil, List.append_assoc, List.cons_append, List.nil_append] at hwords
  have hwords' : a.start.words = keyword :: (value.words ++ stop :: rest) := hwords
  have hahead : a.start.ahead.length = a.ahead.length := rfl
  have hbump := Takes.bump hwords'
  have hless := State.ahead_bump_lt hwords'
  rcases State.words_of_begins hvalue.begins (State.words_of_shape hbump.2) with
    ⟨word, more, hword, hstart⟩
  -- The value begins an expression, so the rule asks for one.
  have hfirst : a.start.bump.isAtOneOf canStartExpr = true := by
    rw [State.isAtOneOf_of_words hword]
    exact hstart
  have hread := takes_anyExpr hvalue hbump.2 rfl (show _ ≤ allowance by omega)
  have hclose := Takes.expect_of_words (hread.rest (State.words_of_shape hbump.2)) hstop
  rcases stmt_jump hkeyword hwords allowance with ⟨hstmt, hne⟩
  rw [hstmt, jumpStmt, optionalExpr, if_pos hfirst]
  exact SoundStmtRules.takes_keyword hwords hne (hread.trans hclose.1)

theorem choice {keyword : Word} {guard row : List Shape} {inner : Shape}
    (hkeyword : keyword.kind = .ifKw) (hguard : Guard guard)
    (hbegins : BeginsWith [inner] StmtStart)
    (hbody : CompleteStmt .stmt (lookBefore row look) [inner])
    (hrow : CompleteStmt .branches look row) :
    CompleteStmt .stmt look [.node .ifStmt (.word keyword :: (guard ++ inner :: row))] := by
  intro shape hshape allowance a rest hwords hrest hallowance
  rcases hshape
  rcases allowance with _ | allowance
  · omega
  simp only [Shape.words_node, Shape.wordsOf_cons, Shape.wordsOf_append, Shape.words_word,
    List.append_assoc, List.cons_append, List.nil_append] at hwords
  have hwords' : a.start.words = _ := hwords
  have hahead : a.start.ahead.length = a.ahead.length := rfl
  have hbump := Takes.bump hwords'
  have hless := State.ahead_bump_lt hwords'
  have hread := takes_condition hguard hbump.2 (show _ ≤ allowance by omega)
  have hle := hread.length_le
  -- The body ends in front of the clauses, the clauses in front of what follows.
  have hinner := body hbegins hbody (hread.rest hbump.2) (head?_wordsOf_append row hrest)
    (show _ ≤ allowance by omega)
  have hle' := hinner.1.length_le
  have hmore := hrow allowance allowance _ rest hinner.2 hrest (by omega) (by omega)
  rw [stmt, State.kind_of_words hwords, hkeyword]
  exact SoundStmtRules.takes_keyword hwords (by decide) (hread.trans (hinner.1.trans hmore))

theorem loop {keyword : Word} {kind : Kind} {head : List Shape} {inner : Shape}
    (hkeyword : loopKind? keyword.kind = some kind) (hhead : LoopHead kind head)
    (hbegins : BeginsWith [inner] StmtStart) (hbody : CompleteStmt .stmt look [inner]) :
    CompleteStmt .stmt look [.node kind (.word keyword :: (head ++ [inner]))] := by
  intro shape hshape allowance a rest hwords hrest hallowance
  rcases hshape
  rcases allowance with _ | allowance
  · omega
  simp only [Shape.words_node, Shape.wordsOf_cons, Shape.wordsOf_append, Shape.wordsOf_nil,
    Shape.words_word, List.append_nil, List.append_assoc, List.cons_append,
    List.nil_append] at hwords
  have hwords' : a.start.words = keyword :: (Shape.wordsOf head ++ (inner.words ++ rest)) := hwords
  have hahead : a.start.ahead.length = a.ahead.length := rfl
  have hbump := Takes.bump hwords'
  have hless := State.ahead_bump_lt hwords'
  -- Whatever the head is read by, the body is read behind it.
  have hgoverned {b : State} (hread : Takes a.start.bump b head) :
      Takes a.start.bump (Grammar.body allowance b) (head ++ [inner]) := by
    have hle := hread.length_le
    have hinner := body hbegins hbody (hread.rest hbump.2) hrest (show _ ≤ allowance by omega)
    exact hread.trans hinner.1
  -- The three loops differ in the rule that reads the head.
  rw [stmt, State.kind_of_words hwords]
  rcases keyword_of_loopKind? hkeyword with ⟨hkind, rfl⟩ | ⟨hkind, rfl⟩ | ⟨hkind, rfl⟩
  · rw [hkind]
    exact SoundStmtRules.takes_keyword hwords (by decide)
      (hgoverned (takes_whileHead hhead hbump.2 (by omega)))
  · rw [hkind]
    exact SoundStmtRules.takes_keyword hwords (by decide)
      (hgoverned (takes_forHead hhead hbump.2 (by omega)))
  · rw [hkind]
    exact SoundStmtRules.takes_keyword hwords (by decide)
      (hgoverned (takes_foreachHead hhead hbump.2 (by omega)))

theorem doWhile {keyword again stop : Word} {guard : List Shape} {inner : Shape}
    (hkeyword : keyword.kind = .doKw) (hwhile : again.kind = .whileKw) (hguard : Guard guard)
    (hstop : stop.kind = .semicolon) (hbegins : BeginsWith [inner] StmtStart)
    (hbody : CompleteStmt .stmt (some again) [inner]) :
    CompleteStmt .stmt look
      [.node .doWhileStmt
        (.word keyword :: inner :: .word again :: (guard ++ [Shape.word stop]))] := by
  intro shape hshape allowance a rest hwords _ hallowance
  rcases hshape
  rcases allowance with _ | allowance
  · omega
  simp only [Shape.words_node, Shape.wordsOf_cons, Shape.wordsOf_append, Shape.wordsOf_nil,
    Shape.words_word, List.append_nil, List.append_assoc, List.cons_append,
    List.nil_append] at hwords
  have hwords' : a.start.words = _ := hwords
  have hahead : a.start.ahead.length = a.ahead.length := rfl
  have hbump := Takes.bump hwords'
  have hless := State.ahead_bump_lt hwords'
  have hinner := body hbegins hbody hbump.2 rfl (show _ ≤ allowance by omega)
  have hle := hinner.1.length_le
  -- Behind the body the `while` and its condition come again, as the rules for both read them.
  have hagain := Takes.expect_of_words hinner.2 hwhile
  have hle' := hagain.1.length_le
  have hread := takes_condition hguard hagain.2 (show _ ≤ allowance by omega)
  have hclose := Takes.expect_of_words (hread.rest hagain.2) hstop
  rw [stmt, State.kind_of_words hwords, hkeyword]
  exact SoundStmtRules.takes_keyword hwords (by decide)
    (hinner.1.trans (hagain.1.trans (hread.trans hclose.1)))

theorem function {keyword opening closing : Word} {head row : List Shape}
    (hkeyword : keyword.kind = .functionKw) (hhead : FunctionHead (some opening) head)
    (hopening : opening.kind = .leftBrace) (hclosing : closing.kind = .rightBrace)
    (hrow : CompleteStmt .stmts (some closing) row) :
    CompleteStmt .stmt look [.node .functionDef (.word keyword ::
      (head ++ [.node .block (.word opening :: (row ++ [Shape.word closing]))]))] := by
  intro shape hshape allowance a rest hwords _ hallowance
  rcases hshape
  rcases allowance with _ | allowance
  · omega
  simp only [Shape.words_node, Shape.wordsOf_cons, Shape.wordsOf_append, Shape.wordsOf_nil,
    Shape.words_word, List.append_nil, List.append_assoc, List.cons_append,
    List.nil_append] at hwords
  have hwords' : a.start.words = _ := hwords
  have hahead : a.start.ahead.length = a.ahead.length := rfl
  have hbump := Takes.bump hwords'
  have hless := State.ahead_bump_lt hwords'
  have hread := takes_functionHead hhead hbump.2 rfl (show _ ≤ allowance by omega)
  have hbehind := hread.rest hbump.2
  have hle := hread.length_le
  have hblock := inBraces hclosing hrow hbehind (show _ ≤ allowance by omega)
  -- The head ends in front of the brace that opens the body.
  have hat : (functionHead allowance a.start.bump).isAt .leftBrace = true :=
    State.isAt_of_kind hbehind hopening
  rw [stmt, State.kind_of_words hwords, hkeyword]
  dsimp only
  rw [if_pos hat]
  exact SoundStmtRules.takes_keyword hwords (by decide) (hread.trans hblock)

theorem empty {stop : Word} (hstop : stop.kind = .semicolon) :
    CompleteStmt .stmt look [.node .emptyStmt [.word stop]] := by
  intro shape hshape allowance a rest hwords _ hallowance
  rcases hshape
  rcases allowance with _ | allowance
  · omega
  have hwords' : a.words = stop :: rest := hwords
  rw [stmt, State.kind_of_words hwords', hstop]
  exact SoundStmtRules.takes_keyword hwords' (by decide) (.refl _)

theorem nil : CompleteStmt .stmts look [] := by
  intro closing allowance a rest hwords hrest hlook _ hallowance
  rcases allowance with _ | allowance
  · omega
  have hat : a.isAt closing = true := by
    rw [State.isAt, State.kind_eq_aheadKind, State.look, hwords, Shape.wordsOf_nil,
      List.nil_append, hrest, hlook, beq_self_eq_true]
  rw [stmtList, hat, Bool.true_or, if_pos rfl]
  exact .refl a

theorem cons {first : Shape} {row : List Shape} (hbegins : BeginsWith [first] StmtStart)
    (hfirst : CompleteStmt .stmt (lookBefore row look) [first])
    (hrow : CompleteStmt .stmts look row) : CompleteStmt .stmts look (first :: row) := by
  intro closing allowance a rest hwords hrest hlook hclosing hallowance
  rcases allowance with _ | allowance
  · omega
  rw [Shape.wordsOf_cons, List.append_assoc] at hwords
  rcases State.words_of_begins hbegins (State.words_of_shape hwords) with
    ⟨word, more, hword, hstart⟩
  have hend : word.kind ≠ .endOfFile := hstart.ne rfl
  -- A statement begins with no closing token, so the list goes on.
  have hat : (a.isAt closing || a.isAt .endOfFile) = false := by
    rw [State.isAt_of_words hword, State.isAt_of_words hword, beq_eq_false_iff_ne.mpr hend,
      Bool.or_false, beq_eq_false_iff_ne]
    rcases hclosing with rfl | rfl
    · exact hstart.ne rfl
    · exact hend
  have hread := hfirst first rfl allowance a _ hwords (head?_wordsOf_append row hrest) (by omega)
  have hbehind := hread.rest (State.words_of_shape hwords)
  have hlength := hread.length
  -- The statement holds a word, so the rule has read something and the list is not cut short.
  have hpos : 0 < (Shape.wordsOf [first]).length := by
    rcases hbegins with ⟨word, words, hwords, _⟩
    rw [hwords]
    exact Nat.zero_lt_succ _
  have hmore := hrow closing allowance _ rest hbehind hrest hlook hclosing (by omega)
  rw [stmtList, hat, if_neg Bool.false_ne_true]
  dsimp only
  rw [if_neg (by omega)]
  exact hread.trans hmore

/-- Nothing more is read where no clause follows. -/
theorem noBranch (helseif : aheadKind look ≠ .elseifKw) (hotherwise : aheadKind look ≠ .elseKw) :
    CompleteStmt .branches look [] := by
  intro count allowance a rest hwords hrest hcount hallowance
  rcases count with _ | count
  · omega
  rcases allowance with _ | allowance
  · omega
  have hkind : a.kind = aheadKind look := by
    rw [State.kind_eq_aheadKind, State.look, hwords, Shape.wordsOf_nil, List.nil_append, hrest]
  rw [elseifClauses, State.isAt, hkind, beq_eq_false_iff_ne.mpr helseif,
    if_neg Bool.false_ne_true, elseClause, State.isAt, hkind, beq_eq_false_iff_ne.mpr hotherwise,
    if_neg Bool.false_ne_true]
  exact .refl a

theorem elseif {keyword : Word} {guard row : List Shape} {inner : Shape}
    (hkeyword : keyword.kind = .elseifKw) (hguard : Guard guard)
    (hbegins : BeginsWith [inner] StmtStart)
    (hbody : CompleteStmt .stmt (lookBefore row look) [inner])
    (hrow : CompleteStmt .branches look row) :
    CompleteStmt .branches look
      (.node .elseifClause (.word keyword :: (guard ++ [inner])) :: row) := by
  intro count allowance a rest hwords hrest hcount hallowance
  rcases count with _ | count
  · omega
  simp only [Shape.words_node, Shape.wordsOf_cons, Shape.wordsOf_append, Shape.wordsOf_nil,
    Shape.words_word, List.append_nil, List.append_assoc, List.cons_append,
    List.nil_append] at hwords
  have hwords' : a.start.words = _ := hwords
  have hahead : a.start.ahead.length = a.ahead.length := rfl
  have hbump := Takes.bump hwords'
  have hless := State.ahead_bump_lt hwords'
  have hread := takes_condition hguard hbump.2 (show _ ≤ count by omega)
  have hle := hread.length_le
  have hinner := body hbegins hbody (hread.rest hbump.2) (head?_wordsOf_append row hrest)
    (show _ ≤ count by omega)
  have hle' := hinner.1.length_le
  -- The clause is closed before the rule looks for the next one.
  have hclause := SoundStmtRules.takes_keyword hwords (show Kind.elseifClause ≠ .tombstone by decide)
    (hread.trans hinner.1)
  have hat : a.isAt .elseifKw = true := State.isAt_of_kind hwords hkeyword
  have hmore := hrow count allowance
    ((Grammar.body count (condition count a.start.bump)).close a.mark .elseifClause) rest
    hinner.2 hrest (show 8 * (Grammar.body count _).ahead.length + 1 ≤ count by omega)
    (show 8 * (Grammar.body count _).ahead.length + 1 ≤ allowance by omega)
  rw [elseifClauses, if_pos hat]
  exact hclause.trans hmore

theorem otherwise {keyword : Word} {inner : Shape} (hkeyword : keyword.kind = .elseKw)
    (hbegins : BeginsWith [inner] StmtStart) (hbody : CompleteStmt .stmt look [inner]) :
    CompleteStmt .branches look [.node .elseClause [.word keyword, inner]] := by
  intro count allowance a rest hwords hrest hcount hallowance
  rcases count with _ | count
  · omega
  rcases allowance with _ | allowance
  · omega
  simp only [Shape.words_node, Shape.wordsOf_cons, Shape.wordsOf_nil, Shape.words_word,
    List.append_nil, List.cons_append, List.nil_append] at hwords
  have hwords' : a.start.words = _ := hwords
  have hahead : a.start.ahead.length = a.ahead.length := rfl
  have hbump := Takes.bump hwords'
  have hless := State.ahead_bump_lt hwords'
  have hinner := body hbegins hbody hbump.2 hrest (show _ ≤ allowance by omega)
  -- The rule for `elseif` reads nothing here and leaves the word to the one for `else`.
  have helseif : a.isAt .elseifKw = false := by
    rw [State.isAt_of_words hwords, hkeyword]
    rfl
  have hat : a.isAt .elseKw = true := State.isAt_of_kind hwords hkeyword
  rw [elseifClauses, helseif, if_neg Bool.false_ne_true, elseClause, if_pos hat]
  exact SoundStmtRules.takes_keyword hwords (by decide) hinner.1

end CompleteStmt

/-- A derived row of statements is read silently, in front of the word that it is derived for. -/
theorem complete_derivesStmt {part : Part} {look : Option Word} {row : List Shape}
    (h : DerivesStmt part look row) : CompleteStmt part look row := by
  induction h with
  | block hopening hclosing _ hrow => exact .block hopening hclosing hrow
  | expr hstop hvalue => exact .expr hstop hvalue
  | echo hkeyword hrow hstop => exact .echo hkeyword hrow hstop
  | jump hkeyword hstop => exact .jump hkeyword hstop
  | jumpWith hkeyword hvalue hstop => exact .jumpWith hkeyword hvalue hstop
  | choice hkeyword hguard h _ hbody hrow => exact .choice hkeyword hguard h.begins hbody hrow
  | loop hkeyword hhead h hbody => exact .loop hkeyword hhead h.begins hbody
  | doWhile hkeyword h hwhile hguard hstop hbody =>
    exact .doWhile hkeyword hwhile hguard hstop h.begins hbody
  | function hkeyword hhead hopening hclosing _ hrow =>
    exact .function hkeyword hhead hopening hclosing hrow
  | empty hstop => exact .empty hstop
  | nil => exact .nil
  | cons h _ hfirst hrow => exact .cons h.begins hfirst hrow
  | noBranch helseif hotherwise => exact .noBranch helseif hotherwise
  | elseif hkeyword hguard h _ hbody hrow => exact .elseif hkeyword hguard h.begins hbody hrow
  | otherwise hkeyword h hbody => exact .otherwise hkeyword h.begins hbody

end Grammar

end PhpAssist

import PhpAssist.Proofs.Silence

/-!
# Grammatical expressions are read silently

The other direction: an expression that the grammar derives in front of a word is read without a
report, whatever else follows, and what is read is this expression and nothing more.

The induction is on the derivation. The loops behind an operand are derived by their states, and
what holds of such a state is that reading comes by it: the rule that was called goes on as its
loop does with what has been read so far. The allowance is in proportion to the tokens ahead, as
it was for soundness.

## Main definitions

* `Grammar.Symbol.Begins`: The kinds that the first word of a row may have.
* `Grammar.Accepts`: A rule answered with a node of a shape, silently.
* `Grammar.Complete`: What is shown of a row in each place.

## Theorems

* `Grammar.Derives.begins`: How a derived row begins.
* `Grammar.complete_derives`: A derived row is read silently.
-/

namespace PhpAssist

namespace Grammar

/-- A row begins with a word whose kind satisfies a predicate. -/
def BeginsWith (row : List Shape) (p : Kind → Prop) : Prop :=
  ∃ word words, Shape.wordsOf row = word :: words ∧ p word.kind

/-- The kinds that an operand without operators may begin with. -/
def AtomStart (kind : Kind) : Prop := kind ≠ .operator ∧ canStartExpr.contains kind = true

/-- The kinds that an expression may begin with. -/
def ExprStart (kind : Kind) : Prop := canStartExpr.contains kind = true

/-- The kinds that a parameter may begin with. -/
def ParamStart (kind : Kind) : Prop := canStartParam.contains kind = true

/-- How a row in a place begins. Nothing is said of the rows that may be empty, and of members,
    which may begin with any reserved word. -/
def Symbol.Begins (row : List Shape) : Symbol → Prop
  | .atom | .access => BeginsWith row AtomStart
  | .operand | .operation _ | .expr _ | .item .argument | .item .element =>
    BeginsWith row ExprStart
  | .item .parameter => BeginsWith row ParamStart
  | .member | .items _ => True

namespace BeginsWith

variable {row more : List Shape} {p q : Kind → Prop}

theorem word {word : Word} (h : p word.kind) : BeginsWith (.word word :: row) p :=
  ⟨word, Shape.wordsOf row, rfl, h⟩

theorem mono (h : BeginsWith row p) (hpq : ∀ kind, p kind → q kind) : BeginsWith row q := by
  rcases h with ⟨word, words, hwords, hword⟩
  exact ⟨word, words, hwords, hpq _ hword⟩

theorem append (h : BeginsWith row p) : BeginsWith (row ++ more) p := by
  rcases h with ⟨word, words, hwords, hword⟩
  exact ⟨word, words ++ Shape.wordsOf more, by rw [Shape.wordsOf_append, hwords,
    List.cons_append], hword⟩

theorem node {kind : Kind} (h : BeginsWith row p) : BeginsWith [.node kind row] p := by
  rcases h with ⟨word, words, hwords, hword⟩
  exact ⟨word, words, by rw [Shape.wordsOf_cons, Shape.words_node, hwords, Shape.wordsOf_nil,
    List.append_nil], hword⟩

/-- A node begins as its first part does. -/
theorem node_cons {kind : Kind} {first : Shape} (h : BeginsWith [first] p) :
    BeginsWith [.node kind (first :: more)] p :=
  node (append h)

end BeginsWith

theorem ParamVariable.begins {row : List Shape} (h : ParamVariable row) :
    BeginsWith row fun kind => kind = .variableName ∨ kind = .operator := by
  cases h with
  | plain hvar => exact .word (.inl hvar)
  | marked hmark _ =>
    rw [Word.isText, Bool.and_eq_true, beq_iff_eq] at hmark
    exact .word (.inr hmark.1)

theorem TypeShape.begins {look : Option Word} {type : Shape} (h : TypeShape look type) :
    BeginsWith [type] fun kind => kind = .name ∨ kind = .question := by
  cases h with
  | plain hname _ => exact .node (.word (.inl hname))
  | optional hmark _ _ => exact .node (.word (.inr hmark))

theorem ParamName.begins {row : List Shape} (h : ParamName row) :
    BeginsWith row ParamStart := by
  cases h with
  | untyped hrow =>
    refine hrow.begins.mono fun kind hkind => ?_
    rcases hkind with rfl | rfl <;> exact rfl
  | typed _ htype =>
    refine BeginsWith.append (htype.begins.mono fun kind hkind => ?_)
    rcases hkind with rfl | rfl <;> exact rfl

theorem atomStart_operandKind? {kind node : Kind} (h : operandKind? kind = some node) :
    AtomStart kind := by
  unfold operandKind? at h
  split at h
  all_goals
    first
    | exact absurd h (by simp only [reduceCtorEq, not_false_eq_true])
    | exact ⟨by decide, rfl⟩

theorem isLeading_kind {word : Word} (h : isLeading word = true) : word.kind = .operator := by
  rw [isLeading, Bool.and_eq_true, beq_iff_eq] at h
  exact h.1

/-- How a derived row begins. -/
theorem Derives.begins {symbol : Symbol} {look : Option Word} {row : List Shape}
    (h : Derives symbol look row) : symbol.Begins row := by
  have hword {kind node : Kind} {word : Word} {more : List Shape} (hkind : word.kind = kind)
      (hstart : AtomStart kind) : BeginsWith [.node node (.word word :: more)] AtomStart :=
    .node (.word (hkind ▸ hstart))
  have haround {first : Shape} {node : Kind} {more : List Shape} {p : Kind → Prop}
      (hfirst : BeginsWith [first] p) : BeginsWith [.node node (first :: more)] p :=
    .node_cons hfirst
  induction h with
  | token hkind => exact hword rfl (atomStart_operandKind? hkind)
  | paren hopening _ _ _ => exact hword hopening ⟨by decide, rfl⟩
  | array hopening _ _ _ => exact hword hopening ⟨by decide, rfl⟩
  | new hkeyword _ _ => exact hword hkeyword ⟨by decide, rfl⟩
  | newWith hkeyword _ _ _ _ _ => exact hword hkeyword ⟨by decide, rfl⟩
  | access _ hbase => exact hbase
  | call _ _ _ _ hbase _ => exact haround hbase
  | append _ _ _ hbase => exact haround hbase
  | index _ _ _ _ hbase _ => exact haround hbase
  | memberOf _ _ _ hbase _ => exact haround hbase
  | step _ _ _ hbase => exact haround hbase
  | memberWord | memberVariable | memberBraces => trivial
  | operand _ _ hbase => exact BeginsWith.mono hbase fun _ hkind => hkind.2
  | leading hop _ _ =>
    exact BeginsWith.node (.word (p := ExprStart) (by rw [isLeading_kind hop]; rfl))
  | operation _ hleft => exact hleft
  | assign _ _ _ _ hleft _ => exact haround hleft
  | short _ _ _ _ _ hleft _ => exact haround hleft
  | ternary _ _ _ _ _ _ hleft _ _ => exact haround hleft
  | binary _ _ _ _ hleft _ => exact haround hleft
  | expr _ _ hwhole => exact hwhole
  | argument _ hvalue => exact hvalue
  | element _ _ hvalue => exact haround hvalue
  | keyed _ _ _ hkey _ => exact haround hkey
  | param hrow _ => exact hrow.begins.node
  | paramDefault hrow _ _ _ => exact hrow.begins.append.node
  | none | last | more => trivial

/-- A rule answered with a node of a shape, and reported nothing. -/
def Accepts (a : State) (found : Option Completed × State) (shape : Shape) : Prop :=
  ∃ completed, found.1 = some completed ∧ Forms a completed found.2 shape

/-- What an item of a list is read by. -/
def readItem (allowance : Nat) : ListSort → State → Bool × State
  | .argument => argument (expr allowance 0)
  | .element => arrayItem (expr allowance 0)
  | .parameter => param allowance

/-- What is shown of a row in each place. -/
def Complete : Symbol → Option Word → List Shape → Prop
  | .atom, look, row => ∀ shape, row = [shape] → ∀ allowance a rest,
    a.words = shape.words ++ rest → rest.head? = look → 8 * a.ahead.length + 1 ≤ allowance →
      Accepts a (primary allowance a) shape
  | .access, look, row => ∀ shape, row = [shape] → ∀ allowance a rest,
    a.words = shape.words ++ rest → rest.head? = look → 8 * a.ahead.length + 3 ≤ allowance →
      ∃ left completed b, unary allowance a = (some (postfixes left completed b).1,
        (postfixes left completed b).2) ∧ Forms a completed b shape ∧ b.words = rest ∧
        8 * b.ahead.length + 2 ≤ left
  | .operand, look, row => ∀ shape, row = [shape] → ∀ allowance a rest,
    a.words = shape.words ++ rest → rest.head? = look → 8 * a.ahead.length + 3 ≤ allowance →
      Accepts a (unary allowance a) shape
  | .operation least, look, row => ∀ shape, row = [shape] → ∀ allowance a rest,
    a.words = shape.words ++ rest → rest.head? = look → 8 * a.ahead.length + 4 ≤ allowance →
      ∃ left completed b, expr allowance least a = (some (operators left least completed b).1,
        (operators left least completed b).2) ∧ Forms a completed b shape ∧ b.words = rest ∧
        8 * b.ahead.length + 1 ≤ left
  | .expr least, look, row => ∀ shape, row = [shape] → ∀ allowance a rest,
    a.words = shape.words ++ rest → rest.head? = look → 8 * a.ahead.length + 4 ≤ allowance →
      Accepts a (expr allowance least a) shape
  | .member, look, row => ∀ allowance a rest, a.words = Shape.wordsOf row ++ rest →
    rest.head? = look → 8 * a.ahead.length + 1 ≤ allowance →
      Takes a (memberName allowance a) row
  | .item sort, look, row => ∀ allowance a rest, a.words = Shape.wordsOf row ++ rest →
    rest.head? = look → 8 * a.ahead.length + 4 ≤ allowance →
      (readItem allowance sort a).1 = true ∧ Takes a (readItem allowance sort a).2 row
  | .items sort, look, row => ∀ count allowance a rest, a.words = Shape.wordsOf row ++ rest →
    rest.head? = look → 8 * a.ahead.length + 1 ≤ count → 8 * a.ahead.length + 4 ≤ allowance →
      Takes a (items sort.brackets (readItem allowance sort) count a) row

/-- What is left ahead is what came behind the row that was read. -/
theorem Takes.rest {a b : State} {row : List Shape} {rest : List Word} (h : Takes a b row)
    (hwords : a.words = Shape.wordsOf row ++ rest) : b.words = rest :=
  List.append_cancel_left (h.words.symm.trans hwords)

theorem Accepts.rest {a : State} {found : Option Completed × State} {shape : Shape}
    {rest : List Word} (h : Accepts a found shape) (hwords : a.words = shape.words ++ rest) :
    Takes a found.2 [shape] ∧ found.2.words = rest := by
  rcases h with ⟨completed, _, hforms⟩
  refine ⟨hforms.takes, hforms.takes.rest ?_⟩
  rw [hwords, Shape.wordsOf_cons, Shape.wordsOf_nil, List.append_nil]

/-- A node is completed around what was read since it started. -/
theorem Accepts.complete {a after : State} {kind : Kind} {row : List Shape}
    (hkind : kind ≠ .tombstone) (h : Takes a.start after row) :
    Accepts a (after.complete a.mark kind) (.node kind row) :=
  ⟨_, rfl, h.close hkind⟩

/-- How the words ahead begin, where a row is ahead that begins with a word. -/
theorem State.words_of_begins {a : State} {row : List Shape} {rest : List Word} {p : Kind → Prop}
    (h : BeginsWith row p) (hwords : a.words = Shape.wordsOf row ++ rest) :
    ∃ word more, a.words = word :: more ∧ p word.kind := by
  rcases h with ⟨word, words, hrow, hword⟩
  exact ⟨word, words ++ rest, by rw [hwords, hrow, List.cons_append], hword⟩

/-- A kind that no expression begins with is not ahead of one. -/
theorem State.not_isAt_of_begins {a : State} {row : List Shape} {rest : List Word} {kind : Kind}
    (hkind : canStartExpr.contains kind = false) (h : BeginsWith row ExprStart)
    (hwords : a.words = Shape.wordsOf row ++ rest) : ¬ a.isAt kind = true := by
  rcases words_of_begins h hwords with ⟨word, more, hword, hstart⟩
  rw [isAt_of_words hword, beq_iff_eq]
  intro heq
  rw [ExprStart, heq, hkind] at hstart
  exact Bool.false_ne_true hstart

/-- A token that is asked for and comes next is read. -/
theorem Takes.expect_of_words {a : State} {word : Word} {rest : List Word} {kind : Kind}
    (hwords : a.words = word :: rest) (hkind : word.kind = kind) :
    Takes a (a.expect kind) [.word word] ∧ (a.expect kind).words = rest := by
  have h := Takes.expect hwords
  rw [hkind] at h
  exact ⟨h, h.rest hwords⟩

theorem State.ahead_bump_lt {a : State} {word : Word} {rest : List Word}
    (hwords : a.words = word :: rest) : a.bump.ahead.length + 1 = a.ahead.length := by
  have hlength := (Takes.bump hwords).1.length_word
  omega

theorem Takes.length_le {a b : State} {row : List Shape} (h : Takes a b row) :
    b.ahead.length ≤ a.ahead.length := by
  have hlength := h.length
  omega

/-! ## Operators -/

section Operators

variable {allowance : Nat} {a : State} {completed : Completed}

/-- The loop stops in front of a word that it does not go on with. -/
theorem operators_stop {least : Nat} (hallowance : 0 < allowance)
    (hlook : a.look.any (continuesExpr least completed.kind) = false) :
    operators allowance least completed a = (completed, a) := by
  rcases allowance with _ | allowance
  · omega
  rw [operators]
  dsimp only
  -- At the end of the text no operator is ahead. In front of a word the three tests of the loop
  -- fail, since the word does not continue the expression.
  rcases hwords : a.words with _ | ⟨word, rest⟩
  · simp only [State.isAt, State.kind_of_words_nil hwords, binding?]
    rfl
  rw [State.look_of_words hwords, Option.any_some, continuesExpr] at hlook
  simp only [State.isAt_of_words hwords, State.kind_of_words hwords, State.text_of_words hwords]
  split at hlook
  · exact absurd hlook.symm Bool.false_ne_true
  rename_i htarget
  rw [if_neg htarget]
  split at hlook
  · rename_i hquestion
    rw [if_pos hquestion, if_pos (by have := of_decide_eq_false hlook; omega)]
  · rename_i hquestion
    rw [if_neg hquestion]
    rcases hbinding : binding? word.kind word.text with _ | binding
    · rfl
    · rw [hbinding, Option.any_some] at hlook
      exact if_pos (by have := of_decide_eq_false hlook; omega)

theorem operators_assign {least : Nat} {op : Word} {rest : List Word}
    (hwords : a.words = op :: rest) (hop : op.kind = .equals ∨ op.kind = .assignOp)
    (htarget : isAssignable completed.kind = true) :
    operators (allowance + 1) least completed a =
      operators allowance least ⟨a.mark, .assignExpr⟩
        ((expr allowance assignmentPower (a.precede completed).bump).2.close a.mark
          .assignExpr) := by
  have hat : ((op.kind == .equals || op.kind == .assignOp) && isAssignable completed.kind) =
      true := by
    rw [htarget, Bool.and_true, Bool.or_eq_true, beq_iff_eq, beq_iff_eq]
    exact hop
  rw [operators]
  simp only [State.isAt_of_words hwords, hat, if_true]

theorem operators_question {least : Nat} {question : Word} {rest : List Word}
    (hwords : a.words = question :: rest) (hquestion : question.kind = .question)
    (hleast : least ≤ ternaryLeft) :
    operators (allowance + 1) least completed a =
      operators allowance least ⟨a.mark, .ternaryExpr⟩
        ((expr allowance ternaryRight ((if (a.precede completed).bump.isAt .colon
          then (a.precede completed).bump
          else (expr allowance 0 (a.precede completed).bump).2).expect .colon)).2.close a.mark
            .ternaryExpr) := by
  have hequals : (Kind.question == .equals || Kind.question == .assignOp) = false := rfl
  rw [operators]
  simp only [State.isAt_of_words hwords, hquestion, hequals, Bool.false_and, Bool.false_eq_true,
    if_false, beq_self_eq_true, if_true]
  rw [if_neg (by omega)]

theorem operators_binary {least : Nat} {op : Word} {rest : List Word} {binding : Binding}
    (hwords : a.words = op :: rest) (hbinding : binding? op.kind op.text = some binding)
    (hleast : least ≤ binding.left) :
    operators (allowance + 1) least completed a =
      operators allowance least ⟨a.mark, binding.kind⟩
        ((expr allowance binding.right (a.precede completed).bump).2.close a.mark
          binding.kind) := by
  -- A binary operator is neither an assignment nor a `?`, so the first two tests fail.
  have hkind : op.kind = .dot ∨ op.kind = .operator := by
    unfold binding? at hbinding
    split at hbinding
    · exact .inl ‹_›
    · exact .inr ‹_›
    · exact absurd hbinding (by simp only [reduceCtorEq, not_false_eq_true])
  have hequals : (op.kind == .equals || op.kind == .assignOp) = false := by
    rcases hkind with hkind | hkind <;> rw [hkind] <;> rfl
  have hquestion : (op.kind == .question) = false := by
    rcases hkind with hkind | hkind <;> rw [hkind] <;> rfl
  rw [operators]
  simp only [State.isAt_of_words hwords, State.kind_of_words hwords, State.text_of_words hwords,
    hequals, hquestion, Bool.false_and, Bool.false_eq_true, if_false, hbinding]
  rw [if_neg (by omega)]

/-- The loop stops in front of a word that does not continue an access. -/
theorem postfixes_stop (hallowance : 0 < allowance)
    (hlook : a.look.any continuesAccess = false) :
    postfixes allowance completed a = (completed, a) := by
  rcases allowance with _ | allowance
  · omega
  rw [postfixes]
  dsimp only
  rcases hwords : a.words with _ | ⟨word, rest⟩
  · simp only [State.kind_of_words_nil hwords]
  rw [State.look_of_words hwords, Option.any_some, continuesAccess] at hlook
  -- None of the four tokens that go on with an access is ahead.
  have hnot {kind : Kind} (hkind : word.kind = kind) :
      kind ≠ .leftParen ∧ kind ≠ .leftBracket ∧ kind ≠ .arrow ∧ kind ≠ .doubleColon := by
    refine ⟨?_, ?_, ?_, ?_⟩
    all_goals
      rintro rfl
      rw [hkind] at hlook
      exact Bool.false_ne_true hlook.symm
  simp only [State.kind_of_words hwords, State.text_of_words hwords]
  split
  · exact absurd rfl (hnot ‹_›).1
  · exact absurd rfl (hnot ‹_›).2.1
  · exact absurd rfl (hnot ‹_›).2.2.1
  · exact absurd rfl (hnot ‹_›).2.2.2
  · rename_i hkind
    -- An operator goes on with an access only as a step.
    rw [hkind] at hlook
    have hsteps := Bool.or_eq_false_iff.mp hlook
    rw [beq_eq_false_iff_ne, beq_eq_false_iff_ne] at hsteps
    rw [if_neg (not_or.mpr hsteps)]
  · rfl

end Operators

/-! ## Productions -/

namespace Complete

variable {look : Option Word}

theorem token {tok : Word} {kind : Kind} (hkind : operandKind? tok.kind = some kind) :
    Complete .atom look [.node kind [.word tok]] := by
  intro shape hshape allowance a rest hwords _ hallowance
  rcases hshape
  -- There is a token ahead, so the allowance is not used up.
  rcases allowance with _ | allowance
  · omega
  have hwords' : a.start.words = tok :: rest := hwords
  rw [primary, State.kind_of_words hwords, hkind]
  exact .complete (operandKind?_ne hkind) (Takes.bump hwords').1

/-- An expression between two tokens, which are read by the rules around it. -/
theorem inside {least : Nat} {inner : Shape} {closing : Word}
    (hinner : Complete (.expr least) (some closing) [inner]) {allowance : Nat} {a : State}
    {rest : List Word} (hwords : a.words = inner.words ++ closing :: rest)
    (hallowance : 8 * a.ahead.length + 4 ≤ allowance) {kind : Kind} (hkind : closing.kind = kind) :
    Takes a ((expr allowance least a).2.expect kind) [inner, .word closing] := by
  rcases (hinner inner rfl allowance a (closing :: rest) hwords rfl hallowance).rest hwords with
    ⟨htakes, hrest⟩
  exact htakes.trans (Takes.expect_of_words hrest hkind).1

theorem paren {opening closing : Word} {inner : Shape} (hopening : opening.kind = .leftParen)
    (hclosing : closing.kind = .rightParen) (hinner : Complete (.expr 0) (some closing) [inner]) :
    Complete .atom look [.node .parenExpr [.word opening, inner, .word closing]] := by
  intro shape hshape allowance a rest hwords _ hallowance
  rcases hshape
  rcases allowance with _ | allowance
  · omega
  simp only [Shape.words_node, Shape.wordsOf_cons, Shape.wordsOf_nil, Shape.words_word,
    List.append_nil, List.cons_append, List.append_assoc] at hwords
  have hwords' : a.start.words = opening :: (inner.words ++ closing :: rest) := hwords
  have hahead : a.start.ahead.length = a.ahead.length := rfl
  have hbump := Takes.bump hwords'
  have hless := State.ahead_bump_lt hwords'
  -- The opening token is behind, which pays for the call between the tokens.
  have hinside := inside hinner hbump.2 (show 8 * a.start.bump.ahead.length + 4 ≤ allowance by
    omega) hclosing
  rw [primary, State.kind_of_words hwords, hopening]
  exact .complete (by decide) (hbump.1.trans hinside)

/-- A list between brackets, brackets included. -/
theorem delimited {sort : ListSort} {opening closing : Word} {row : List Shape}
    (hclosing : closing.kind = sort.brackets.closing)
    (hrow : Complete (.items sort) (some closing) row) {allowance : Nat} {a : State}
    {rest : List Word}
    (hwords : a.words = opening :: (Shape.wordsOf row ++ closing :: rest))
    (hallowance : 8 * a.ahead.length ≤ allowance) :
    Takes a (Grammar.delimited sort.brackets (readItem allowance sort) allowance a)
      (.word opening :: (row ++ [Shape.word closing])) := by
  have hbump := Takes.bump hwords
  have hless := State.ahead_bump_lt hwords
  have hitems := hrow allowance allowance a.bump (closing :: rest) hbump.2 rfl (by omega) (by omega)
  exact hbump.1.trans (hitems.trans
    (Takes.expect_of_words (hitems.rest hbump.2) hclosing).1)

theorem argList {opening closing : Word} {row : List Shape}
    (hclosing : closing.kind = .rightParen)
    (hrow : Complete (.items .argument) (some closing) row) {allowance : Nat} {a : State}
    {rest : List Word} (hwords : a.words = opening :: (Shape.wordsOf row ++ closing :: rest))
    (hallowance : 8 * a.ahead.length + 1 ≤ allowance) :
    Takes a (Grammar.argList allowance a)
      [.node .argList (.word opening :: (row ++ [Shape.word closing]))] := by
  rcases allowance with _ | allowance
  · omega
  have hwords' : a.start.words = opening :: (Shape.wordsOf row ++ closing :: rest) := hwords
  have hahead : a.start.ahead.length = a.ahead.length := rfl
  have hlist := delimited hclosing hrow hwords' (show 8 * a.start.ahead.length ≤ allowance by omega)
  rw [Grammar.argList]
  exact (hlist.close (by decide)).takes

theorem array {opening closing : Word} {row : List Shape} (hopening : opening.kind = .leftBracket)
    (hclosing : closing.kind = .rightBracket)
    (hrow : Complete (.items .element) (some closing) row) :
    Complete .atom look [.node .arrayExpr (.word opening :: (row ++ [Shape.word closing]))] := by
  intro shape hshape allowance a rest hwords _ hallowance
  rcases hshape
  rcases allowance with _ | allowance
  · omega
  simp only [Shape.words_node, Shape.wordsOf_cons, Shape.wordsOf_append, Shape.wordsOf_nil,
    Shape.words_word, List.append_nil, List.cons_append,
    List.append_assoc] at hwords
  have hwords' : a.start.words = opening :: (Shape.wordsOf row ++ closing :: rest) := hwords
  have hahead : a.start.ahead.length = a.ahead.length := rfl
  have hlist := delimited hclosing hrow hwords' (show 8 * a.start.ahead.length ≤ allowance by omega)
  rw [primary, State.kind_of_words hwords, hopening]
  exact .complete (by decide) hlist

/-- The name of a class is read. -/
theorem className {a : State} {name : Word} {kind : Kind} {rest : List Word}
    (hwords : a.words = name :: rest) (hname : classKind? name.kind = some kind) :
    Takes a (Grammar.className a) [.node kind [.word name]] := by
  have hwords' : a.start.words = name :: rest := hwords
  have hleaf (node : Kind) (hne : node ≠ .tombstone) :
      Takes a (a.leaf node).2 [.node node [.word name]] :=
    ((Takes.bump hwords').1.close hne).takes
  rcases kind_of_classKind? hname with ⟨hkind, rfl⟩ | ⟨hkind, rfl⟩
  · rw [Grammar.className, State.kind_of_words hwords, hkind]
    exact hleaf _ (by decide)
  · rw [Grammar.className, State.kind_of_words hwords, hkind]
    exact hleaf _ (by decide)

theorem new {keyword name : Word} {kind : Kind} (hkeyword : keyword.kind = .newKw)
    (hname : classKind? name.kind = some kind) (hlook : aheadKind look ≠ .leftParen) :
    Complete .atom look [.node .newExpr [.word keyword, .node kind [.word name]]] := by
  intro shape hshape allowance a rest hwords hrest hallowance
  rcases hshape
  rcases allowance with _ | allowance
  · omega
  simp only [Shape.words_node, Shape.wordsOf_cons, Shape.wordsOf_nil, Shape.words_word,
    List.append_nil, List.cons_append] at hwords
  have hwords' : a.start.words = keyword :: name :: rest := hwords
  have hbump := Takes.bump hwords'
  have hclass := className hbump.2 hname
  -- No list of arguments follows the name, so none is read.
  have hat : (Grammar.className a.start.bump).isAt .leftParen = false := by
    rw [State.isAt, State.kind_eq_aheadKind, State.look, hclass.rest hbump.2, hrest]
    exact beq_eq_false_iff_ne.mpr hlook
  rw [primary, State.kind_of_words hwords, hkeyword]
  simp only [operandKind?, hat, Bool.false_eq_true, if_false]
  exact .complete (by decide) (hbump.1.trans hclass)

theorem newWith {keyword name opening closing : Word} {kind : Kind} {row : List Shape}
    (hkeyword : keyword.kind = .newKw) (hname : classKind? name.kind = some kind)
    (hopening : opening.kind = .leftParen) (hclosing : closing.kind = .rightParen)
    (hrow : Complete (.items .argument) (some closing) row) :
    Complete .atom look [.node .newExpr [.word keyword, .node kind [.word name],
      .node .argList (.word opening :: (row ++ [Shape.word closing]))]] := by
  intro shape hshape allowance a rest hwords _ hallowance
  rcases hshape
  rcases allowance with _ | allowance
  · omega
  simp only [Shape.words_node, Shape.wordsOf_cons, Shape.wordsOf_append, Shape.wordsOf_nil,
    Shape.words_word, List.append_nil, List.cons_append,
    List.append_assoc] at hwords
  have hwords' : a.start.words = keyword :: name :: opening ::
    (Shape.wordsOf row ++ closing :: rest) := hwords
  have hahead : a.start.ahead.length = a.ahead.length := rfl
  have hbump := Takes.bump hwords'
  have hless := State.ahead_bump_lt hwords'
  have hclass := className hbump.2 hname
  have hle := hclass.length_le
  have hrest := hclass.rest hbump.2
  -- Behind the name stands the list of arguments.
  have hat : (Grammar.className a.start.bump).isAt .leftParen = true :=
    State.isAt_of_kind hrest hopening
  have hlist := argList hclosing hrow hrest (show _ + 1 ≤ allowance by omega)
  rw [primary, State.kind_of_words hwords, hkeyword]
  simp only [operandKind?, hat, if_true]
  exact .complete (by decide) (hbump.1.trans (hclass.trans hlist))

/-- A node that a rule answered with, as the pair that the rule answered. -/
theorem pair_of_accepts {a : State} {found : Option Completed × State} {shape : Shape}
    (h : Accepts a found shape) :
    ∃ completed b, found = (some completed, b) ∧ Forms a completed b shape := by
  rcases h with ⟨completed, hsome, hforms⟩
  exact ⟨completed, found.2, Prod.ext hsome rfl, hforms⟩

theorem access {base : Shape} (hbegins : BeginsWith [base] AtomStart)
    (hbase : Complete .atom look [base]) : Complete .access look [base] := by
  intro shape hshape allowance a rest hwords hrest hallowance
  rcases hshape
  rcases allowance with _ | allowance
  · omega
  have hwords' : a.words = Shape.wordsOf [base] ++ rest := by
    rw [hwords, Shape.wordsOf_cons, Shape.wordsOf_nil, List.append_nil]
  rcases State.words_of_begins hbegins hwords' with ⟨word, more, hword, hstart⟩
  -- An atom begins with no operator, so the rule for atoms is called and the loop is entered.
  have hat : a.isAt .operator = false := by
    rw [State.isAt_of_words hword]
    exact beq_eq_false_iff_ne.mpr hstart.1
  rcases pair_of_accepts (hbase base rfl allowance a rest hwords hrest (by omega)) with
    ⟨completed, b, hpair, hforms⟩
  have hle := hforms.takes.length_le
  refine ⟨allowance, completed, b, ?_, hforms, hforms.takes.rest hwords', by omega⟩
  rw [unary, hat, Bool.false_and, if_neg Bool.false_ne_true, hpair]

/-- One round of the loop over accesses. The base is read, and the loop goes on with a node around
    it that holds the row behind it as well. -/
theorem access_around {kind : Kind} (hkind : kind ≠ .tombstone) {op : Word} {base : Shape}
    {row : List Shape} (hop : (Shape.wordsOf row).head? = some op)
    (hbase : Complete .access (some op) [base])
    (hround : ∀ left completed b rest, b.words = Shape.wordsOf row ++ rest → rest.head? = look →
      8 * b.ahead.length + 1 ≤ left → ∃ c, Takes (b.precede completed) c row ∧
        postfixes (left + 1) completed b =
          postfixes left ⟨b.mark, kind⟩ (c.close b.mark kind)) :
    Complete .access look [.node kind (base :: row)] := by
  intro shape hshape allowance a rest hwords hrest hallowance
  rcases hshape
  rw [Shape.words_node, Shape.wordsOf_cons, List.append_assoc] at hwords
  have hhead : (Shape.wordsOf row ++ rest).head? = some op := by
    rw [List.head?_append, hop, Option.some_or]
  rcases hbase base rfl allowance a _ hwords hhead hallowance with
    ⟨left, completed, b, hunary, hforms, hb, hleft⟩
  rcases left with _ | left
  · omega
  rcases hround left completed b rest hb hrest (by omega) with ⟨c, hrow, hloop⟩
  -- The row holds a word, and reading it pays for the next round of the loop.
  have hlength : b.ahead.length = (Shape.wordsOf row).length + c.ahead.length := hrow.length
  have hpos : 0 < (Shape.wordsOf row).length :=
    List.length_pos_iff.mpr fun hnil => Option.some_ne_none op (by rw [← hop, hnil, List.head?_nil])
  refine ⟨left, _, _, hloop ▸ hunary, hforms.around hkind hrow, hrow.rest hb, ?_⟩
  show 8 * c.ahead.length + 2 ≤ left
  omega

theorem call {opening closing : Word} {base : Shape} {row : List Shape}
    (hopening : opening.kind = .leftParen) (hclosing : closing.kind = .rightParen)
    (hbase : Complete .access (some opening) [base])
    (hrow : Complete (.items .argument) (some closing) row) :
    Complete .access look [.node .callExpr [base,
      .node .argList (.word opening :: (row ++ [Shape.word closing]))]] := by
  refine access_around (by decide) rfl hbase fun left completed b rest hb hrest hleft => ?_
  simp only [Shape.words_node, Shape.wordsOf_cons, Shape.wordsOf_append, Shape.wordsOf_nil,
    Shape.words_word, List.append_nil, List.cons_append, List.append_assoc, List.nil_append] at hb
  have hb' : (b.precede completed).words = opening :: (Shape.wordsOf row ++ closing :: rest) := hb
  refine ⟨_, argList hclosing hrow hb' hleft, ?_⟩
  rw [postfixes]
  simp only [State.kind_of_words hb, hopening]

theorem append {opening closing : Word} {base : Shape} (hopening : opening.kind = .leftBracket)
    (hclosing : closing.kind = .rightBracket) (hbase : Complete .access (some opening) [base]) :
    Complete .access look [.node .indexExpr [base, .word opening, .word closing]] := by
  refine access_around (by decide) rfl hbase fun left completed b rest hb hrest hleft => ?_
  have hb' : (b.precede completed).words = opening :: closing :: rest := hb
  have hbump := Takes.bump hb'
  -- With nothing between the brackets the loop asks for the closing one.
  have hat : (b.precede completed).bump.isAt .rightBracket = true :=
    State.isAt_of_kind hbump.2 hclosing
  refine ⟨_, hbump.1.trans (Takes.expect_of_words hbump.2 hclosing).1, ?_⟩
  rw [postfixes]
  simp only [State.kind_of_words hb, hopening, hat, if_true]

theorem index {opening closing : Word} {base inner : Shape}
    (hopening : opening.kind = .leftBracket) (hclosing : closing.kind = .rightBracket)
    (hbegins : BeginsWith [inner] ExprStart) (hbase : Complete .access (some opening) [base])
    (hinner : Complete (.expr 0) (some closing) [inner]) :
    Complete .access look [.node .indexExpr [base, .word opening, inner, .word closing]] := by
  refine access_around (by decide) rfl hbase fun left completed b rest hb hrest hleft => ?_
  simp only [Shape.wordsOf_cons, Shape.wordsOf_nil, Shape.words_word, List.append_nil,
    List.cons_append, List.append_assoc, List.nil_append] at hb
  have hb' : (b.precede completed).words = opening :: (inner.words ++ closing :: rest) := hb
  have hahead : (b.precede completed).ahead.length = b.ahead.length := rfl
  have hbump := Takes.bump hb'
  have hless := State.ahead_bump_lt hb'
  -- What begins an expression is no closing bracket.
  have hat : ¬ (b.precede completed).bump.isAt .rightBracket = true := by
    have hinner : (b.precede completed).bump.words = Shape.wordsOf [inner] ++ closing :: rest := by
      rw [hbump.2, Shape.wordsOf_cons, Shape.wordsOf_nil, List.append_nil]
    exact State.not_isAt_of_begins (by decide) hbegins hinner
  have hinside := inside hinner hbump.2
    (show 8 * (b.precede completed).bump.ahead.length + 4 ≤ left by omega) hclosing
  refine ⟨_, hbump.1.trans hinside, ?_⟩
  rw [postfixes]
  simp only [State.kind_of_words hb, hopening, if_neg hat]

theorem memberOf {op : Word} {base : Shape} {kind : Kind} {row : List Shape}
    (hop : accessKind? op.kind = some kind) (hbase : Complete .access (some op) [base])
    (hrow : Complete .member look row) :
    Complete .access look [.node kind (base :: .word op :: row)] := by
  have hkinds := kind_of_accessKind? hop
  have hkind : kind ≠ .tombstone := by rcases hkinds with ⟨_, rfl⟩ | ⟨_, rfl⟩ <;> decide
  refine access_around hkind rfl hbase fun left completed b rest hb hrest hleft => ?_
  have hb' : (b.precede completed).words = op :: (Shape.wordsOf row ++ rest) := hb
  have hahead : (b.precede completed).ahead.length = b.ahead.length := rfl
  have hbump := Takes.bump hb'
  have hless := State.ahead_bump_lt hb'
  have hname := hrow left (b.precede completed).bump rest hbump.2 hrest (by omega)
  refine ⟨_, hbump.1.trans hname, ?_⟩
  -- The two tokens differ in the kind of the node only.
  rcases hkinds with ⟨hword, rfl⟩ | ⟨hword, rfl⟩
  all_goals
    rw [postfixes]
    simp only [State.kind_of_words hb', hword, show b.kind = (b.precede completed).kind from rfl]

theorem step {op : Word} {base : Shape} (hop : op.kind = .operator)
    (hstep : op.text = ['+', '+'] ∨ op.text = ['-', '-'])
    (hbase : Complete .access (some op) [base]) :
    Complete .access look [.node .postfixExpr [base, .word op]] := by
  refine access_around (by decide) rfl hbase fun left completed b rest hb hrest hleft => ?_
  have hb' : (b.precede completed).words = op :: rest := hb
  refine ⟨_, (Takes.bump hb').1, ?_⟩
  rw [postfixes]
  simp only [State.kind_of_words hb, State.text_of_words hb, hop, if_pos hstep]

theorem memberWord {name : Word} (hname : name.kind = .name ∨ name.kind.isKeyword = true) :
    Complete .member look [.word name] := by
  intro allowance a rest hwords _ hallowance
  rcases allowance with _ | allowance
  · omega
  have hbump := (Takes.bump (show a.words = name :: rest from hwords)).1
  have hkind : a.kind = name.kind := State.kind_of_words hwords
  rw [memberName]
  rcases hname with hname | hname
  · rw [hkind, hname]
    exact hbump
  -- A keyword is none of the kinds that the rule has a case for, so it is read as a name.
  · split
    · exact hbump
    · rename_i hvariable
      rw [← hkind, hvariable] at hname
      exact absurd hname (by decide)
    · rename_i hbrace
      rw [← hkind, hbrace] at hname
      exact absurd hname (by decide)
    · rw [hkind, if_pos hname]
      exact hbump

theorem memberVariable {name : Word} (hname : name.kind = .variableName) :
    Complete .member look [.node .variable [.word name]] := by
  intro allowance a rest hwords _ hallowance
  rcases allowance with _ | allowance
  · omega
  have hwords' : a.start.words = name :: rest := hwords
  have hkind : a.kind = .variableName := (State.kind_of_words hwords).trans hname
  rw [memberName, hkind]
  exact ((Takes.bump hwords').1.close (by decide)).takes

theorem memberBraces {opening closing : Word} {inner : Shape} (hopening : opening.kind = .leftBrace)
    (hclosing : closing.kind = .rightBrace) (hinner : Complete (.expr 0) (some closing) [inner]) :
    Complete .member look [.word opening, inner, .word closing] := by
  intro allowance a rest hwords _ hallowance
  rcases allowance with _ | allowance
  · omega
  simp only [Shape.wordsOf_cons, Shape.wordsOf_nil, Shape.words_word, List.append_nil,
    List.cons_append, List.append_assoc, List.nil_append] at hwords
  have hbump := Takes.bump hwords
  have hless := State.ahead_bump_lt hwords
  have hinside := inside hinner hbump.2 (show 8 * a.bump.ahead.length + 4 ≤ allowance by omega)
    hclosing
  rw [memberName, State.kind_of_words hwords, hopening]
  exact hbump.1.trans hinside

theorem operand {base : Shape} (hlook : look.any continuesAccess = false)
    (hbase : Complete .access look [base]) : Complete .operand look [base] := by
  intro shape hshape allowance a rest hwords hrest hallowance
  rcases hshape
  rcases hbase base rfl allowance a rest hwords hrest hallowance with
    ⟨left, completed, b, hunary, hforms, hb, hleft⟩
  -- The loop stops at what does not continue an access.
  have hstop := @postfixes_stop _ _ completed (show 0 < left by omega)
    (show b.look.any continuesAccess = false by rw [State.look, hb, hrest, hlook])
  rw [hunary, hstop]
  exact ⟨completed, rfl, hforms⟩

theorem leading {op : Word} {inner : Shape} (hop : isLeading op = true)
    (hinner : Complete (.expr leadingPower) look [inner]) :
    Complete .operand look [.node .prefixExpr [.word op, inner]] := by
  intro shape hshape allowance a rest hwords hrest hallowance
  rcases hshape
  rcases allowance with _ | allowance
  · omega
  simp only [Shape.words_node, Shape.wordsOf_cons, Shape.wordsOf_nil, Shape.words_word,
    List.append_nil, List.cons_append, List.nil_append] at hwords
  have hwords' : a.start.words = op :: (inner.words ++ rest) := hwords
  have hahead : a.start.ahead.length = a.ahead.length := rfl
  have hbump := Takes.bump hwords'
  have hless := State.ahead_bump_lt hwords'
  have hinside := hinner inner rfl allowance a.start.bump rest hbump.2 hrest (by omega)
  have hat : (a.isAt .operator && leadingOperators.any (·.toList == a.next.text)) = true := by
    rw [State.isAt_of_words hwords, State.text_of_words hwords]
    exact hop
  rw [unary, if_pos hat]
  exact .complete (by decide) (hbump.1.trans (hinside.rest hbump.2).1)

theorem operation {least : Nat} {left : Shape} (hleft : Complete .operand look [left]) :
    Complete (.operation least) look [left] := by
  intro shape hshape allowance a rest hwords hrest hallowance
  rcases hshape
  rcases allowance with _ | allowance
  · omega
  -- One call reads the operand, and the loop over operators is entered with its answer.
  have haccepts := hleft left rfl allowance a rest hwords hrest (by omega)
  have hb := (haccepts.rest hwords).2
  rcases pair_of_accepts haccepts with ⟨completed, b, hpair, hforms⟩
  have hle := hforms.takes.length_le
  rw [hpair] at hb
  refine ⟨allowance, completed, b, ?_, hforms, hb, by omega⟩
  rw [expr, hpair]

/-- One round of the loop over operators. The left side is read, and the loop goes on with a node
    around it that holds the operator and what is behind it as well. -/
theorem operation_around {kind : Kind} (hkind : kind ≠ .tombstone) {least : Nat} {op : Word}
    {left : Shape} {row : List Shape} (hleft : Complete (.operation least) (some op) [left])
    (hround : ∀ allowance completed b rest, completed.kind = left.kind →
      b.words = op :: (Shape.wordsOf row ++ rest) → rest.head? = look →
      8 * b.ahead.length ≤ allowance → ∃ c, Takes (b.precede completed) c (.word op :: row) ∧
        operators (allowance + 1) least completed b =
          operators allowance least ⟨b.mark, kind⟩ (c.close b.mark kind)) :
    Complete (.operation least) look [.node kind (left :: .word op :: row)] := by
  intro shape hshape allowance a rest hwords hrest hallowance
  rcases hshape
  rw [Shape.words_node, Shape.wordsOf_cons, List.append_assoc] at hwords
  rcases hleft left rfl allowance a _ hwords rfl hallowance with
    ⟨more, completed, b, hexpr, hforms, hb, hmore⟩
  rcases more with _ | more
  · omega
  rcases hround more completed b rest hforms.kind.symm hb hrest (by omega) with ⟨c, hrow, hloop⟩
  -- An operator at least was read, which pays for the next round.
  have hlength : b.ahead.length = (Shape.wordsOf (.word op :: row)).length + c.ahead.length :=
    hrow.length
  rw [Shape.wordsOf_cons, Shape.words_word, List.length_append, List.length_singleton] at hlength
  refine ⟨more, _, _, hloop ▸ hexpr, hforms.around hkind hrow, hrow.rest hb, ?_⟩
  show 8 * c.ahead.length + 1 ≤ more
  omega

/-- An operand behind an operator is read. -/
theorem behind {power : Nat} {right : Shape} {op : Word}
    (hright : Complete (.expr power) look [right]) {allowance : Nat} {a : State} {rest : List Word}
    (hwords : a.words = op :: (right.words ++ rest))
    (hrest : rest.head? = look) (hallowance : 8 * a.ahead.length ≤ allowance + 4) :
    Takes a (expr allowance power a.bump).2 [.word op, right] := by
  have hbump := Takes.bump hwords
  have hless := State.ahead_bump_lt hwords
  have haccepts := hright right rfl allowance a.bump rest hbump.2 hrest (by omega)
  exact hbump.1.trans (haccepts.rest hbump.2).1

theorem assign {least : Nat} {op : Word} {left right : Shape}
    (hop : op.kind = .equals ∨ op.kind = .assignOp) (htarget : isAssignable left.kind = true)
    (hleft : Complete (.operation least) (some op) [left])
    (hright : Complete (.expr assignmentPower) look [right]) :
    Complete (.operation least) look [.node .assignExpr [left, .word op, right]] := by
  refine operation_around (by decide) hleft
    fun allowance completed b rest hkind hb hrest hallowance => ?_
  rw [Shape.wordsOf_cons, Shape.wordsOf_nil, List.append_nil] at hb
  have hb' : (b.precede completed).words = op :: (right.words ++ rest) := hb
  have hahead : (b.precede completed).ahead.length = b.ahead.length := rfl
  -- Behind the left side the loop takes the branch for assignments.
  rw [← hkind] at htarget
  exact ⟨_, behind hright hb' hrest (by omega), operators_assign hb hop htarget⟩

theorem binary {least : Nat} {op : Word} {left right : Shape} {binding : Binding}
    (hbinding : binding? op.kind op.text = some binding) (hleast : least ≤ binding.left)
    (hleft : Complete (.operation least) (some op) [left])
    (hright : Complete (.expr binding.right) look [right]) :
    Complete (.operation least) look [.node binding.kind [left, .word op, right]] := by
  refine operation_around (binding?_kind_ne hbinding) hleft
    fun allowance completed b rest _ hb hrest hallowance => ?_
  rw [Shape.wordsOf_cons, Shape.wordsOf_nil, List.append_nil] at hb
  have hb' : (b.precede completed).words = op :: (right.words ++ rest) := hb
  have hahead : (b.precede completed).ahead.length = b.ahead.length := rfl
  exact ⟨_, behind hright hb' hrest (by omega), operators_binary hb hbinding hleast⟩

theorem short {least : Nat} {question colon : Word} {left right : Shape}
    (hquestion : question.kind = .question) (hleast : least ≤ ternaryLeft)
    (hcolon : colon.kind = .colon) (hleft : Complete (.operation least) (some question) [left])
    (hright : Complete (.expr ternaryRight) look [right]) :
    Complete (.operation least) look
      [.node .ternaryExpr [left, .word question, .word colon, right]] := by
  refine operation_around (by decide) hleft
    fun allowance completed b rest _ hb hrest hallowance => ?_
  simp only [Shape.wordsOf_cons, Shape.wordsOf_nil, Shape.words_word, List.append_nil,
    List.cons_append, List.nil_append] at hb
  have hb' : (b.precede completed).words = question :: colon :: (right.words ++ rest) := hb
  have hahead : (b.precede completed).ahead.length = b.ahead.length := rfl
  have hbump := Takes.bump hb'
  have hless := State.ahead_bump_lt hb'
  -- With the `:` right behind the `?` there is no middle to read.
  have hat : (b.precede completed).bump.isAt .colon = true := State.isAt_of_kind hbump.2 hcolon
  have hexpect := Takes.expect_of_words hbump.2 hcolon
  have hle := hexpect.1.length_le
  have haccepts := hright right rfl allowance _ rest hexpect.2 hrest (by omega)
  have hloop := @operators_question allowance _ completed _ _ _ hb hquestion hleast
  rw [if_pos hat] at hloop
  exact ⟨_, hbump.1.trans (hexpect.1.trans (haccepts.rest hexpect.2).1), hloop⟩

theorem ternary {least : Nat} {question colon : Word} {left middle right : Shape}
    (hquestion : question.kind = .question) (hleast : least ≤ ternaryLeft)
    (hcolon : colon.kind = .colon) (hbegins : BeginsWith [middle] ExprStart)
    (hleft : Complete (.operation least) (some question) [left])
    (hmiddle : Complete (.expr 0) (some colon) [middle])
    (hright : Complete (.expr ternaryRight) look [right]) :
    Complete (.operation least) look
      [.node .ternaryExpr [left, .word question, middle, .word colon, right]] := by
  refine operation_around (by decide) hleft
    fun allowance completed b rest _ hb hrest hallowance => ?_
  simp only [Shape.wordsOf_cons, Shape.wordsOf_nil, Shape.words_word, List.append_nil,
    List.cons_append, List.nil_append, List.append_assoc] at hb
  have hb' : (b.precede completed).words =
    question :: (middle.words ++ colon :: (right.words ++ rest)) := hb
  have hahead : (b.precede completed).ahead.length = b.ahead.length := rfl
  have hbump := Takes.bump hb'
  have hless := State.ahead_bump_lt hb'
  -- What begins an expression is no `:`, so the middle is read.
  have hat : ¬ (b.precede completed).bump.isAt .colon = true := by
    have hinner : (b.precede completed).bump.words =
        Shape.wordsOf [middle] ++ colon :: (right.words ++ rest) := by
      rw [hbump.2, Shape.wordsOf_cons, Shape.wordsOf_nil, List.append_nil]
    exact State.not_isAt_of_begins (by decide) hbegins hinner
  have hinner := (hmiddle middle rfl allowance _ _ hbump.2 rfl (by omega)).rest hbump.2
  have hexpect := Takes.expect_of_words hinner.2 hcolon
  have hle := hinner.1.length_le
  have hle' := hexpect.1.length_le
  have haccepts := hright right rfl allowance _ rest hexpect.2 hrest (by omega)
  have hloop := @operators_question allowance _ completed _ _ _ hb hquestion hleast
  rw [if_neg hat] at hloop
  exact ⟨_, hbump.1.trans (hinner.1.trans (hexpect.1.trans (haccepts.rest hexpect.2).1)), hloop⟩

theorem expr {least : Nat} {whole : Shape}
    (hlook : look.any (continuesExpr least whole.kind) = false)
    (hwhole : Complete (.operation least) look [whole]) : Complete (.expr least) look [whole] := by
  intro shape hshape allowance a rest hwords hrest hallowance
  rcases hshape
  rcases hwhole whole rfl allowance a rest hwords hrest hallowance with
    ⟨left, completed, b, hexpr, hforms, hb, hleft⟩
  -- The loop ends here because the grammar says that the word ahead does not continue it.
  have hstop := @operators_stop _ _ completed least (show 0 < left by omega)
    (show b.look.any (continuesExpr least completed.kind) = false by
      rw [State.look, hb, hrest, ← hforms.kind, hlook])
  rw [hexpr, hstop]
  exact ⟨completed, rfl, hforms⟩

theorem argument {value : Shape} (hbegins : BeginsWith [value] ExprStart)
    (hvalue : Complete (.expr 0) look [value]) : Complete (.item .argument) look [value] := by
  intro allowance a rest hwords hrest hallowance
  rcases State.words_of_begins hbegins hwords with ⟨word, more, hword, hstart⟩
  have hat : a.isAtOneOf canStartExpr = true := by
    rw [State.isAtOneOf_of_words hword]
    exact hstart
  rw [Shape.wordsOf_cons, Shape.wordsOf_nil, List.append_nil] at hwords
  have haccepts := hvalue value rfl allowance a rest hwords hrest hallowance
  have htakes := (haccepts.rest hwords).1
  rcases haccepts with ⟨completed, hsome, _⟩
  rw [readItem, Grammar.argument, if_pos hat, hsome]
  exact ⟨rfl, htakes⟩

/-- The rule for items reads an item and closes a node around it, where an item begins. -/
theorem arrayItem {row : List Shape} {allowance : Nat} {a : State} {rest : List Word}
    (hbegins : BeginsWith row ExprStart) (hwords : a.words = Shape.wordsOf row ++ rest)
    (hrow : Takes a.start
      (arrowValue (Grammar.expr allowance 0) (Grammar.expr allowance 0 a.start).2) row) :
    (readItem allowance .element a).1 = true ∧
      Takes a (readItem allowance .element a).2 [.node .arrayItem row] := by
  rcases State.words_of_begins hbegins hwords with ⟨word, more, hword, hstart⟩
  have hat : a.isAtOneOf canStartExpr = true := by
    rw [State.isAtOneOf_of_words hword]
    exact hstart
  rw [readItem, Grammar.arrayItem, if_pos hat]
  exact ⟨rfl, (hrow.close (by decide)).takes⟩

theorem element {value : Shape} (hlook : aheadKind look ≠ .fatArrow)
    (hbegins : BeginsWith [value] ExprStart) (hvalue : Complete (.expr 0) look [value]) :
    Complete (.item .element) look [.node .arrayItem [value]] := by
  intro allowance a rest hwords hrest hallowance
  rw [Shape.wordsOf_cons, Shape.wordsOf_nil, List.append_nil, Shape.words_node] at hwords
  refine arrayItem hbegins hwords ?_
  rw [Shape.wordsOf_cons, Shape.wordsOf_nil, List.append_nil] at hwords
  have hwords' : a.start.words = value.words ++ rest := hwords
  have hread := (hvalue value rfl allowance a.start rest hwords' hrest hallowance).rest hwords'
  -- No `=>` follows, so the value is alone.
  have hat : (Grammar.expr allowance 0 a.start).2.isAt .fatArrow = false := by
    rw [State.isAt, State.kind_eq_aheadKind, State.look, hread.2, hrest]
    exact beq_eq_false_iff_ne.mpr hlook
  rw [arrowValue, hat, if_neg Bool.false_ne_true]
  exact hread.1

theorem keyed {arrow : Word} {key value : Shape} (harrow : arrow.kind = .fatArrow)
    (hbegins : BeginsWith [key] ExprStart) (hkey : Complete (.expr 0) (some arrow) [key])
    (hvalue : Complete (.expr 0) look [value]) :
    Complete (.item .element) look [.node .arrayItem [key, .word arrow, value]] := by
  intro allowance a rest hwords hrest hallowance
  rw [Shape.wordsOf_cons, Shape.wordsOf_nil, List.append_nil, Shape.words_node] at hwords
  refine arrayItem (BeginsWith.append hbegins) hwords ?_
  simp only [Shape.wordsOf_cons, Shape.wordsOf_nil, Shape.words_word, List.append_nil,
    List.cons_append, List.append_assoc, List.nil_append] at hwords
  have hwords' : a.start.words = key.words ++ arrow :: (value.words ++ rest) := hwords
  have hahead : a.start.ahead.length = a.ahead.length := rfl
  have hread := (hkey key rfl allowance a.start _ hwords' rfl hallowance).rest hwords'
  have hle := hread.1.length_le
  -- Behind the key stands `=>`.
  have hat : (Grammar.expr allowance 0 a.start).2.isAt .fatArrow = true :=
    State.isAt_of_kind hread.2 harrow
  rw [arrowValue, if_pos hat]
  exact hread.1.trans (behind hvalue hread.2 hrest (by omega))

/-- The other members of a union type are read. -/
theorem unionMembers {row : List Shape} (h : UnionMembers look row) {allowance : Nat} {a : State}
    {rest : List Word} (hwords : a.words = Shape.wordsOf row ++ rest) (hrest : rest.head? = look)
    (hallowance : 8 * a.ahead.length + 1 ≤ allowance) :
    Takes a (Grammar.unionMembers allowance a) row := by
  -- By induction on the members: each is a `|` and a name, and these two words pay for the rest.
  induction h generalizing allowance a with
  | done hlook =>
    rcases allowance with _ | allowance
    · omega
    rw [Shape.wordsOf_nil, List.nil_append] at hwords
    rw [Grammar.unionMembers, State.isAtText_operator, State.look, hwords, hrest, hlook,
      if_neg Bool.false_ne_true]
    exact .refl a
  | more hbar hname _ ih =>
    rcases allowance with _ | allowance
    · omega
    simp only [Shape.wordsOf_cons, Shape.words_word, List.cons_append, List.nil_append] at hwords
    have hbump := Takes.bump hwords
    have hless := State.ahead_bump_lt hwords
    have hexpect := Takes.expect_of_words hbump.2 hname
    have hle := hexpect.1.length_le
    have hmore := ih hexpect.2 (show _ ≤ allowance by omega)
    rw [Grammar.unionMembers, State.isAtText_operator, State.look_of_words hwords, Option.any_some,
      if_pos hbar]
    exact hbump.1.trans (hexpect.1.trans hmore)

/-- A type is read. -/
theorem typeRef {type : Shape} (h : TypeShape look type) {allowance : Nat} {a : State}
    {rest : List Word} (hwords : a.words = type.words ++ rest) (hrest : rest.head? = look)
    (hallowance : 8 * a.ahead.length + 1 ≤ allowance) :
    Takes a (Grammar.typeRef allowance a) [type] := by
  have hahead : a.start.ahead.length = a.ahead.length := rfl
  rw [Grammar.typeRef]
  -- A question mark in front is skipped; without one nothing is.
  cases h with
  | plain hname hrow =>
    simp only [Shape.words_node, Shape.wordsOf_cons, Shape.words_word, List.cons_append,
      List.nil_append] at hwords
    have hwords' : a.start.words = _ := hwords
    have hskip : a.start.skip .question = a.start := by
      rw [State.skip, State.isAt_of_words hwords', hname]
      rfl
    have hexpect := Takes.expect_of_words hwords' hname
    have hle := hexpect.1.length_le
    have hunion := unionMembers hrow hexpect.2 hrest (show _ ≤ allowance by omega)
    rw [hskip]
    exact ((hexpect.1.trans hunion).close (by decide)).takes
  | optional hmark hname hrow =>
    simp only [Shape.words_node, Shape.wordsOf_cons, Shape.words_word, List.cons_append,
      List.nil_append] at hwords
    have hwords' : a.start.words = _ := hwords
    have hskip : a.start.skip .question = a.start.bump := by
      rw [State.skip, State.isAt_of_words hwords', hmark]
      rfl
    have hbump := Takes.bump hwords'
    have hle := hbump.1.length_le
    have hexpect := Takes.expect_of_words hbump.2 hname
    have hle' := hexpect.1.length_le
    have hunion := unionMembers hrow hexpect.2 hrest (show _ ≤ allowance by omega)
    rw [hskip]
    exact ((hbump.1.trans (hexpect.1.trans hunion)).close (by decide)).takes

/-- A name with a `&` in front of it or not is read. -/
theorem marked {row : List Shape} {name : Word} {target : Kind} (hname : name.kind = target)
    (htarget : target ≠ .operator)
    (hrow : row = [.word name] ∨
      ∃ mark, mark.isText .operator "&" = true ∧ row = [.word mark, .word name])
    {a : State} {rest : List Word} (hwords : a.words = Shape.wordsOf row ++ rest) :
    (if a.isAtText .operator "&" then a.bump else a).isAt target = true ∧
      Takes a (if a.isAtText .operator "&" then a.bump else a).bump row := by
  rw [State.isAtText_operator]
  rcases hrow with rfl | ⟨mark, hmark, rfl⟩
  -- Without the mark the name itself is ahead, which is no `&`.
  · have hwords' : a.words = name :: rest := hwords
    have hmark : name.isText .operator "&" = false := by
      rw [Word.isText, hname, beq_eq_false_iff_ne.mpr htarget, Bool.false_and]
    rw [State.look_of_words hwords', Option.any_some, hmark, if_neg Bool.false_ne_true,
      State.isAt_of_words hwords', hname, beq_self_eq_true]
    exact ⟨rfl, (Takes.bump hwords').1⟩
  · have hwords' : a.words = mark :: name :: rest := hwords
    have hbump := Takes.bump hwords'
    rw [State.look_of_words hwords', Option.any_some, if_pos hmark,
      State.isAt_of_words hbump.2, hname, beq_self_eq_true]
    exact ⟨rfl, hbump.1.trans (Takes.bump hbump.2).1⟩

/-- The name of a parameter is read. -/
theorem paramVariable {row : List Shape} (h : ParamVariable row) {a : State} {rest : List Word}
    (hwords : a.words = Shape.wordsOf row ++ rest) :
    Takes a ((if a.isAtText .operator "&" then a.bump else a).expect .variableName) row := by
  have hread : (if a.isAtText .operator "&" then a.bump else a).isAt .variableName = true ∧
      Takes a (if a.isAtText .operator "&" then a.bump else a).bump row := by
    cases h with
    | plain hvar => exact marked hvar (by decide) (.inl rfl) hwords
    | marked hmark hvar => exact marked hvar (by decide) (.inr ⟨_, hmark, rfl⟩) hwords
  rw [State.expect, if_pos hread.1]
  exact hread.2

/-- A parameter up to its name is read. -/
theorem paramName {row : List Shape} (h : ParamName row) {allowance : Nat} {a : State}
    {rest : List Word} (hwords : a.words = Shape.wordsOf row ++ rest)
    (hallowance : 8 * a.ahead.length + 1 ≤ allowance) :
    Takes a (Grammar.paramName allowance a) row := by
  rw [Grammar.paramName]
  cases h with
  | untyped hrow =>
    -- A parameter without a type begins with its variable or with `&`.
    rcases State.words_of_begins hrow.begins hwords with ⟨word, more, hword, hstart⟩
    have hat : (a.isAt .name || a.isAt .question) = false := by
      rw [State.isAt_of_words hword, State.isAt_of_words hword]
      rcases hstart with hstart | hstart <;> rw [hstart] <;> rfl
    rw [hat, if_neg Bool.false_ne_true]
    exact paramVariable hrow hwords
  | @typed type row hrow htype =>
    rw [Shape.wordsOf_cons, List.append_assoc] at hwords
    have hwords' : a.words = Shape.wordsOf [type] ++ (Shape.wordsOf row ++ rest) := by
      rw [hwords, Shape.wordsOf_cons, Shape.wordsOf_nil, List.append_nil]
    rcases State.words_of_begins htype.begins hwords' with ⟨word, more, hword, hstart⟩
    have hat : (a.isAt .name || a.isAt .question) = true := by
      rw [State.isAt_of_words hword, State.isAt_of_words hword]
      rcases hstart with hstart | hstart <;> rw [hstart] <;> rfl
    -- The type is read in front of the first word of what follows it.
    rcases hrow.begins with ⟨first, others, hothers, _⟩
    have hrest : (Shape.wordsOf row ++ rest).head? = (Shape.wordsOf row).head? := by
      rw [hothers]
      rfl
    have htakes := typeRef htype hwords hrest hallowance
    rw [if_pos hat]
    exact htakes.trans (paramVariable hrow (htakes.rest hwords'))

/-- The rule for parameters reads a parameter and closes a node around it, where one begins. -/
theorem readParam {row : List Shape} {allowance : Nat} {a : State} {rest : List Word}
    (hbegins : BeginsWith row ParamStart) (hwords : a.words = Shape.wordsOf row ++ rest)
    (hrow : Takes a.start
      (if (Grammar.paramName allowance a.start).isAt .equals
        then (Grammar.expr allowance 0 (Grammar.paramName allowance a.start).bump).2
        else Grammar.paramName allowance a.start) row) :
    (readItem allowance .parameter a).1 = true ∧
      Takes a (readItem allowance .parameter a).2 [.node .param row] := by
  rcases State.words_of_begins hbegins hwords with ⟨word, more, hword, hstart⟩
  have hat : a.isAtOneOf canStartParam = true := by
    rw [State.isAtOneOf_of_words hword]
    exact hstart
  rw [readItem, Grammar.param, if_pos hat]
  exact ⟨rfl, (hrow.close (by decide)).takes⟩

theorem param {row : List Shape} (hrow : ParamName row) (hlook : aheadKind look ≠ .equals) :
    Complete (.item .parameter) look [.node .param row] := by
  intro allowance a rest hwords hrest hallowance
  rw [Shape.wordsOf_cons, Shape.wordsOf_nil, List.append_nil, Shape.words_node] at hwords
  have hahead : a.start.ahead.length = a.ahead.length := rfl
  have hwords' : a.start.words = Shape.wordsOf row ++ rest := hwords
  have hname := paramName hrow hwords' (show _ ≤ allowance by omega)
  have hat : (Grammar.paramName allowance a.start).isAt .equals = false := by
    rw [State.isAt, State.kind_eq_aheadKind, State.look, hname.rest hwords', hrest]
    exact beq_eq_false_iff_ne.mpr hlook
  refine readParam hrow.begins hwords ?_
  rw [hat, if_neg Bool.false_ne_true]
  exact hname

theorem paramDefault {equals : Word} {value : Shape} {row : List Shape} (hrow : ParamName row)
    (hequals : equals.kind = .equals) (hvalue : Complete (.expr 0) look [value]) :
    Complete (.item .parameter) look [.node .param (row ++ [.word equals, value])] := by
  intro allowance a rest hwords hrest hallowance
  rw [Shape.wordsOf_cons, Shape.wordsOf_nil, List.append_nil, Shape.words_node] at hwords
  refine readParam hrow.begins.append hwords ?_
  simp only [Shape.wordsOf_append, Shape.wordsOf_cons, Shape.wordsOf_nil, Shape.words_word,
    List.append_nil, List.cons_append, List.append_assoc, List.nil_append] at hwords
  have hahead : a.start.ahead.length = a.ahead.length := rfl
  have hwords' : a.start.words = Shape.wordsOf row ++ equals :: (value.words ++ rest) := hwords
  have hname := paramName hrow hwords' (show _ ≤ allowance by omega)
  have hbehind := hname.rest hwords'
  have hle := hname.length_le
  -- The `=` of the default follows the name.
  have hat : (Grammar.paramName allowance a.start).isAt .equals = true :=
    State.isAt_of_kind hbehind hequals
  rw [if_pos hat]
  exact hname.trans (behind hvalue hbehind hrest (by omega))

/-- An item begins as the items of its list may. -/
theorem begins_item {sort : ListSort} {row : List Shape} (h : (Symbol.item sort).Begins row) :
    BeginsWith row fun kind => sort.brackets.first.contains kind = true := by
  cases sort <;> exact h

/-- Neither the tokens around the items of a list nor the end can begin an item. -/
theorem not_begins_item (sort : ListSort) {kind : Kind}
    (h : kind = sort.brackets.closing ∨ kind = sort.brackets.separator ∨ kind = .endOfFile) :
    sort.brackets.first.contains kind = false := by
  cases sort <;> rcases h with rfl | rfl | rfl <;> rfl

theorem none {sort : ListSort} (hlook : aheadKind look = sort.brackets.closing) :
    Complete (.items sort) look [] := by
  intro count allowance a rest hwords hrest hcount hallowance
  rcases count with _ | count
  · omega
  have hat : a.isAt sort.brackets.closing = true := by
    rw [State.isAt, State.kind_eq_aheadKind, State.look, hwords, Shape.wordsOf_nil,
      List.nil_append, hrest, hlook, beq_self_eq_true]
  rw [Grammar.items, hat, Bool.true_or, if_pos rfl]
  exact .refl a

/-- The list reads an item where one is ahead. -/
theorem items_item {sort : ListSort} {item : Shape} (hbegins : (Symbol.item sort).Begins [item])
    (hitem : Complete (.item sort) look [item]) (count : Nat) {allowance : Nat} {a : State}
    {rest : List Word} (hwords : a.words = Shape.wordsOf [item] ++ rest) (hrest : rest.head? = look)
    (hallowance : 8 * a.ahead.length + 4 ≤ allowance) :
    ∃ b, Takes a b [item] ∧ b.words = rest ∧
      items sort.brackets (readItem allowance sort) (count + 1) a =
        if b.isAt sort.brackets.separator then
          items sort.brackets (readItem allowance sort) count b.bump
        else if b.isAtOneOf sort.brackets.first then
          items sort.brackets (readItem allowance sort) count (b.expect sort.brackets.separator)
        else b := by
  rcases State.words_of_begins (begins_item hbegins) hwords with ⟨word, more, hword, hstart⟩
  -- An item begins with a word of its own, so none of the tests that end the list holds.
  have hne (kind : Kind) (hkind : kind = sort.brackets.closing ∨
      kind = sort.brackets.separator ∨ kind = .endOfFile) : a.isAt kind = false := by
    rw [State.isAt_of_words hword, beq_eq_false_iff_ne]
    intro heq
    rw [heq, not_begins_item sort hkind] at hstart
    exact Bool.false_ne_true hstart
  rcases hitem allowance a rest hwords hrest hallowance with ⟨hsome, htakes⟩
  refine ⟨_, htakes, htakes.rest hwords, ?_⟩
  rcases hfound : readItem allowance sort a with ⟨found, after⟩
  rw [hfound] at hsome
  rw [Grammar.items, hne _ (.inl rfl), hne _ (.inr (.inl rfl)), hne _ (.inr (.inr rfl)), hfound,
    show found = true from hsome]
  rfl

theorem last {sort : ListSort} {item : Shape} (hlook : aheadKind look = sort.brackets.closing)
    (hbegins : (Symbol.item sort).Begins [item]) (hitem : Complete (.item sort) look [item]) :
    Complete (.items sort) look [item] := by
  intro count allowance a rest hwords hrest hcount hallowance
  rcases count with _ | count
  · omega
  rcases items_item hbegins hitem count hwords hrest hallowance with
    ⟨b, htakes, hb, hitems⟩
  -- The closing token ends the list: it separates no items and begins none.
  have hkind : b.kind = sort.brackets.closing := by
    rw [State.kind_eq_aheadKind, State.look, hb, hrest, hlook]
  have hseparator : b.isAt sort.brackets.separator = false := by
    rw [State.isAt, hkind]
    cases sort <;> rfl
  have hfirst : b.isAtOneOf sort.brackets.first = false := by
    rw [State.isAtOneOf, hkind]
    exact not_begins_item sort (.inl rfl)
  rw [hitems, hseparator, hfirst, if_neg Bool.false_ne_true, if_neg Bool.false_ne_true]
  exact htakes

theorem more {sort : ListSort} {comma : Word} {item : Shape} {row : List Shape}
    (hcomma : comma.kind = .comma) (hbegins : (Symbol.item sort).Begins [item])
    (hitem : Complete (.item sort) (some comma) [item]) (hrow : Complete (.items sort) look row) :
    Complete (.items sort) look (item :: .word comma :: row) := by
  intro count allowance a rest hwords hrest hcount hallowance
  rcases count with _ | count
  · omega
  have hwords' : a.words = Shape.wordsOf [item] ++ comma :: (Shape.wordsOf row ++ rest) := by
    simp only [hwords, Shape.wordsOf_cons, Shape.wordsOf_nil, Shape.words_word, List.append_nil,
      List.cons_append, List.append_assoc, List.nil_append]
  rcases items_item hbegins hitem count hwords' rfl hallowance with
    ⟨b, htakes, hb, hitems⟩
  -- The comma leads on to the other items.
  have hseparator : b.isAt sort.brackets.separator = true := by
    rw [State.isAt_of_words hb, hcomma]
    cases sort <;> rfl
  have hbump := Takes.bump hb
  have hless := State.ahead_bump_lt hb
  have hle := htakes.length_le
  have hmore := hrow count allowance b.bump rest hbump.2 hrest (by omega) (by omega)
  rw [hitems, if_pos hseparator]
  exact htakes.trans (hbump.1.trans hmore)

end Complete

/-- A derived row is read silently, in front of the word that it is derived for. -/
theorem complete_derives {symbol : Symbol} {look : Option Word} {row : List Shape}
    (h : Derives symbol look row) : Complete symbol look row := by
  induction h with
  | token hkind => exact .token hkind
  | paren hopening hclosing _ hinner => exact .paren hopening hclosing hinner
  | array hopening hclosing _ hrow => exact .array hopening hclosing hrow
  | new hkeyword hname hlook => exact .new hkeyword hname hlook
  | newWith hkeyword hname hopening hclosing _ hrow =>
    exact .newWith hkeyword hname hopening hclosing hrow
  | access h hbase => exact .access h.begins hbase
  | call _ hopening hclosing _ hbase hrow => exact .call hopening hclosing hbase hrow
  | append _ hopening hclosing hbase => exact .append hopening hclosing hbase
  | index _ hopening hclosing h hbase hinner =>
    exact .index hopening hclosing h.begins hbase hinner
  | memberOf _ hop _ hbase hrow => exact .memberOf hop hbase hrow
  | step _ hop hstep hbase => exact .step hop hstep hbase
  | memberWord hname => exact .memberWord hname
  | memberVariable hname => exact .memberVariable hname
  | memberBraces hopening hclosing _ hinner => exact .memberBraces hopening hclosing hinner
  | operand _ hlook hbase => exact .operand hlook hbase
  | leading hop _ hinner => exact .leading hop hinner
  | operation _ hleft => exact .operation hleft
  | assign _ hop htarget _ hleft hright => exact .assign hop htarget hleft hright
  | short _ hquestion hleast hcolon _ hleft hright =>
    exact .short hquestion hleast hcolon hleft hright
  | ternary _ hquestion hleast h hcolon _ hleft hmiddle hright =>
    exact .ternary hquestion hleast hcolon h.begins hleft hmiddle hright
  | binary _ hbinding hleast _ hleft hright => exact .binary hbinding hleast hleft hright
  | expr _ hlook hwhole => exact .expr hlook hwhole
  | argument h hvalue => exact .argument h.begins hvalue
  | element h hlook hvalue => exact .element hlook h.begins hvalue
  | keyed h harrow _ hkey hvalue => exact .keyed harrow h.begins hkey hvalue
  | param hrow hlook => exact .param hrow hlook
  | paramDefault hrow hequals _ hvalue => exact .paramDefault hrow hequals hvalue
  | none hlook => exact .none hlook
  | last h hlook hitem => exact .last hlook h.begins hitem
  | more h hcomma _ hitem hrow => exact .more hcomma h.begins hitem hrow

end Grammar

end PhpAssist

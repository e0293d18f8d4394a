import PhpAssist.Proofs.Silence

/-!
# Silent expressions are grammatical

What the parser reads as an expression without reporting anything is an expression of the grammar,
in front of the word at which it stopped. Each rule is taken apart at the calls it makes: the calls
are silent because the whole is, so each of them has read what the grammar allows in its place,
and the production that puts these parts together is the one the rule follows.

A rule that ran out of its allowance would be silent as well. The allowance is therefore asked to
be in proportion to the tokens ahead, with a few calls to spare before the next token is read, and
it stays so from call to call.

## Main definitions

* `Grammar.Derived`: A node was completed silently, and the grammar derives it.
* `Grammar.SoundItem`: What is asked of the rule that reads the items of a list.
* `Grammar.SoundRules`: The statements about all rules for expressions.

## Theorems

* `Grammar.derives_items`: What a list between brackets holds.
* `Grammar.soundRules`: The rules for expressions are sound.
-/

namespace PhpAssist

namespace Grammar

/-- A node was completed silently, and the grammar derives its shape in a place. -/
def Derived (a : State) (symbol : Symbol) (found : Option Completed × State) : Prop :=
  ∃ completed shape, found.1 = some completed ∧ Forms a completed found.2 shape ∧
    Derives symbol found.2.look [shape]

theorem Derived.takes {a : State} {symbol : Symbol} {found : Option Completed × State}
    (h : Derived a symbol found) :
    ∃ shape, Takes a found.2 [shape] ∧ Derives symbol found.2.look [shape] := by
  rcases h with ⟨completed, shape, _, hforms, hderives⟩
  exact ⟨shape, hforms.takes, hderives⟩

/-- What is asked of a rule that reads the items of a list: it reads only where an item may begin,
    and what it reads silently there is an item. -/
structure SoundItem (sort : ListSort) (bound : Nat) (item : State → Bool × State) : Prop where
  accounted : ∀ state, Accounted state (item state).2
  none : ∀ state, state.isAtOneOf sort.brackets.first = false → item state = (false, state)
  some : ∀ state, 8 * state.ahead.length + 4 ≤ bound → Silent state (item state).2 →
    state.isAtOneOf sort.brackets.first = true → (item state).1 = true ∧
      ∃ shape, Takes state (item state).2 [shape] ∧
        Derives (.item sort) (item state).2.look [shape]

namespace SoundItem

variable {sort : ListSort} {bound : Nat} {item : State → Bool × State}

/-- What the rule reports to be an item is one. -/
theorem found (rule : SoundItem sort bound item) {a after : State}
    (hbound : 8 * a.ahead.length + 4 ≤ bound) (h : item a = (true, after))
    (hsilent : Silent a after) :
    ∃ shape, Takes a after [shape] ∧ Derives (.item sort) after.look [shape] := by
  by_cases hat : a.isAtOneOf sort.brackets.first = true
  · have hitem := rule.some a hbound
    rw [h] at hitem
    exact (hitem hsilent hat).2
  · have hafter := rule.none a (Bool.not_eq_true _ ▸ hat)
    rw [h] at hafter
    injection hafter with hafter _
    exact absurd hafter.symm Bool.false_ne_true

/-- What the rule reports to be no item has not been read. -/
theorem not_found (rule : SoundItem sort bound item) {a after : State}
    (hbound : 8 * a.ahead.length + 4 ≤ bound) (h : item a = (false, after))
    (hsilent : Silent a after) : after = a := by
  by_cases hat : a.isAtOneOf sort.brackets.first = true
  · have hitem := rule.some a hbound
    rw [h] at hitem
    exact absurd (hitem hsilent hat).1 Bool.false_ne_true
  · have hafter := rule.none a (Bool.not_eq_true _ ▸ hat)
    rw [h] at hafter
    injection hafter

end SoundItem

/-- What a list between brackets holds when it is read silently up to its closing bracket. -/
theorem derives_items {sort : ListSort} {item : State → Bool × State} {bound : Nat}
    (rule : SoundItem sort bound item) {allowance : Nat} {a : State}
    (hallowance : 8 * a.ahead.length + 1 ≤ allowance)
    (hbound : 8 * a.ahead.length + 4 ≤ bound)
    (hsilent : Silent a (items sort.brackets item allowance a))
    (hclosing : (items sort.brackets item allowance a).isAt sort.brackets.closing = true) :
    ∃ row, Takes a (items sort.brackets item allowance a) row ∧
      Derives (.items sort) (items sort.brackets item allowance a).look row := by
  have hend (state : State) (h : state.isAt sort.brackets.closing = true) :
      aheadKind state.look = sort.brackets.closing := by
    rw [← State.kind_eq_aheadKind]
    exact beq_iff_eq.mp h
  have hcomma : sort.brackets.separator = .comma := by cases sort <;> rfl
  -- By induction on the calls: each round that goes on has read an item and a separator.
  induction allowance generalizing a with
  | zero => omega
  | succ allowance ih =>
    have hrest (state : State) : Accounted state (items sort.brackets item allowance state) :=
      accounted_items rule.accounted _ _ _
    revert hsilent hclosing
    rw [items]
    split
    · intro _ hclosing
      exact ⟨[], .refl a, .none (hend a hclosing)⟩
    rename_i hopen
    split
    · intro hsilent _
      exact absurd hsilent (Silent.not_reject (hrest _))
    have hfirst := rule.accounted a
    split
    · rename_i after heq
      intro hsilent hclosing
      -- The list would have ended before what was no item.
      rw [rule.not_found hbound heq hsilent] at hclosing
      rw [hclosing, Bool.true_or] at hopen
      exact absurd rfl hopen
    rename_i after heq
    rw [heq] at hfirst
    split
    · rename_i hseparator
      intro hsilent hclosing
      have hparts := hsilent.split hfirst ((Accounted.bump _).trans (hrest _))
      have hmore := (hparts.2.split (Accounted.bump _) (hrest _)).2
      rcases rule.found hbound heq hparts.1 with ⟨shape, htakes, hderives⟩
      rw [hcomma] at hseparator
      rcases State.words_of_kind (beq_iff_eq.mp hseparator) (by decide) with
        ⟨comma, rest, hwords, hkind⟩
      have hbump := (Takes.bump hwords).1
      have hlength := htakes.length
      have hlength' := hbump.length_word
      rcases ih (a := after.bump) (by omega) (by omega) hmore hclosing with ⟨row, hrow, hitems⟩
      rw [State.look_of_words hwords] at hderives
      exact ⟨_, (htakes.trans hbump).trans hrow, .more hderives hkind hitems⟩
    rename_i hseparator
    split
    · intro hsilent _
      -- Another item without a separator is read, but the missing separator is reported.
      have hparts := hsilent.split hfirst ((Accounted.expect _ _).trans (hrest _))
      have hexpect := (hparts.2.split (Accounted.expect _ _) (hrest _)).1
      rw [hcomma] at hexpect hseparator
      rcases hexpect.expect (by decide) with ⟨comma, hkind, hlook, _⟩
      rw [State.isAt, State.kind_eq_aheadKind, hlook] at hseparator
      exact absurd (beq_iff_eq.mpr hkind) hseparator
    · intro hsilent hclosing
      rcases rule.found hbound heq hsilent with ⟨shape, htakes, hderives⟩
      exact ⟨[shape], htakes, .last hderives (hend _ hclosing)⟩

/-- A list is read silently with the tokens around it. -/
theorem derives_delimited {sort : ListSort} {item : State → Bool × State} {bound : Nat}
    (rule : SoundItem sort bound item) {allowance : Nat} {a : State} {opening : Word}
    {rest : List Word} (hopening : a.words = opening :: rest)
    (hallowance : 8 * a.ahead.length ≤ allowance) (hbound : 8 * a.ahead.length ≤ bound)
    (hsilent : Silent a (delimited sort.brackets item allowance a)) :
    ∃ closing row, closing.kind = sort.brackets.closing ∧
      Takes a (delimited sort.brackets item allowance a)
        (.word opening :: (row ++ [Shape.word closing])) ∧
      Derives (.items sort) (some closing) row := by
  have hbump := (Takes.bump hopening).1
  have hlength := hbump.length_word
  have hitems := accounted_items rule.accounted sort.brackets allowance a.bump
  have hparts := hsilent.split (Accounted.bump a) (hitems.trans (.expect _ _))
  have hinner := hparts.2.split hitems (.expect _ _)
  -- The closing token is not missing, so the items end in front of it.
  have hend : sort.brackets.closing ≠ .endOfFile := by cases sort <;> decide
  rcases hinner.2.expect hend with ⟨closing, hkind, hlook, hclose⟩
  have hclosing : (items sort.brackets item allowance a.bump).isAt sort.brackets.closing = true := by
    rw [State.isAt, State.kind_eq_aheadKind, hlook]
    exact beq_iff_eq.mpr hkind
  rcases derives_items rule (by omega) (by omega) hinner.1 hclosing with ⟨row, hrow, hderives⟩
  rw [hlook] at hderives
  exact ⟨closing, row, hkind, hbump.trans (hrow.trans hclose), hderives⟩

section Items

variable {read : State → Option Completed × State} {bound : Nat}
  (hread : ∀ state, 8 * state.ahead.length + 4 ≤ bound → Silent state (read state).2 →
    Derived state (.expr 0) (read state))

theorem argument_of_not_first {state : State}
    (h : state.isAtOneOf arguments.first = false) : argument read state = (false, state) := by
  have h' : state.isAtOneOf canStartExpr = false := h
  rw [argument, h', if_neg Bool.false_ne_true]

theorem arrayItem_of_not_first {state : State}
    (h : state.isAtOneOf arrayItems.first = false) : arrayItem read state = (false, state) := by
  have h' : state.isAtOneOf canStartExpr = false := h
  rw [arrayItem, h', if_neg Bool.false_ne_true]

include hread

theorem derives_argument {state : State} (hbound : 8 * state.ahead.length + 4 ≤ bound)
    (hsilent : Silent state (argument read state).2)
    (hat : state.isAtOneOf arguments.first = true) : (argument read state).1 = true ∧
      ∃ shape, Takes state (argument read state).2 [shape] ∧
        Derives (.item .argument) (argument read state).2.look [shape] := by
  have hat' : state.isAtOneOf canStartExpr = true := hat
  rw [argument, if_pos hat'] at hsilent ⊢
  rcases hread state hbound hsilent with ⟨completed, shape, hsome, hforms, hderives⟩
  exact ⟨by rw [hsome]; rfl, shape, hforms.takes, .argument hderives⟩

theorem derives_arrayItem (haccounted : ∀ state, Accounted state (read state).2) {state : State}
    (hbound : 8 * state.ahead.length + 4 ≤ bound)
    (hsilent : Silent state (arrayItem read state).2)
    (hat : state.isAtOneOf arrayItems.first = true) : (arrayItem read state).1 = true ∧
      ∃ shape, Takes state (arrayItem read state).2 [shape] ∧
        Derives (.item .element) (arrayItem read state).2.look [shape] := by
  have hat' : state.isAtOneOf canStartExpr = true := hat
  rw [arrayItem, if_pos hat'] at hsilent ⊢
  have hinside : Silent state.start (arrowValue read (read state.start).2) := hsilent
  have hparts := hinside.split (haccounted _) (accounted_arrowValue haccounted _)
  rcases (hread state.start hbound hparts.1).takes with ⟨key, hkey, hderives⟩
  refine ⟨rfl, ?_⟩
  -- With `=>` behind it what was read is a key, and the value follows.
  rw [arrowValue] at hparts ⊢
  split
  · rename_i hat
    rw [if_pos hat] at hparts
    rcases State.words_of_kind (beq_iff_eq.mp hat) (by decide) with ⟨arrow, rest, hwords, hkind⟩
    have hbump := (Takes.bump hwords).1
    have hlength := hkey.length
    have hlength' := hbump.length_word
    have hstart : state.start.ahead.length = state.ahead.length := rfl
    have hvalue := (hparts.2.split (Accounted.bump _) (haccounted _)).2
    rcases (hread _ (by omega) hvalue).takes with ⟨value, hvalue, hderives'⟩
    rw [State.look_of_words hwords] at hderives
    exact ⟨_, (Takes.close (by decide) ((hkey.trans hbump).trans hvalue)).takes,
      .keyed hderives hkind hderives'⟩
  · rename_i hat
    refine ⟨_, (Takes.close (by decide) hkey).takes, .element hderives ?_⟩
    exact State.aheadKind_ne hat

theorem soundItem_argument (haccounted : ∀ state, Accounted state (read state).2) :
    SoundItem .argument bound (argument read) where
  accounted := accounted_argument haccounted
  none _ := argument_of_not_first
  some _ := derives_argument hread

theorem soundItem_element (haccounted : ∀ state, Accounted state (read state).2) :
    SoundItem .element bound (arrayItem read) where
  accounted := accounted_arrayItem haccounted
  none _ := arrayItem_of_not_first
  some _ := derives_arrayItem hread haccounted

end Items

theorem derives_className {a : State} (hsilent : Silent a (className a)) :
    ∃ name kind, classKind? name.kind = some kind ∧
      Takes a (className a) [.node kind [.word name]] := by
  have hleaf {kind node : Kind} (hkind : a.kind = kind) (hend : kind ≠ .endOfFile)
      (hnode : classKind? kind = some node) (hne : node ≠ .tombstone) :
      ∃ name kind, classKind? name.kind = some kind ∧
        Takes a (a.leaf node).2 [.node kind [.word name]] := by
    rcases State.words_of_kind hkind hend with ⟨name, rest, hwords, hname⟩
    have hwords' : a.start.words = name :: rest := hwords
    exact ⟨name, node, by rw [hname, hnode], ((Takes.bump hwords').1.close hne).takes⟩
  revert hsilent
  rw [className]
  -- A name and a variable name a class, and anything else is reported.
  split
  · rename_i hkind
    intro _
    exact hleaf hkind (by decide) rfl (by decide)
  · rename_i hkind
    intro _
    exact hleaf hkind (by decide) rfl (by decide)
  · intro hsilent
    exact absurd hsilent (Silent.not_cons rfl)

/-- What is known of the rules for expressions with a given allowance. A loop goes on with a node
    whose shape the grammar derives as a state of the loop. -/
structure SoundRules (allowance : Nat) : Prop where
  expr : ∀ least a, 8 * a.ahead.length + 4 ≤ allowance →
    Silent a (Grammar.expr allowance least a).2 →
    Derived a (.expr least) (Grammar.expr allowance least a)
  operators : ∀ least a operand b shape, Forms a operand b shape →
    Derives (.operation least) b.look [shape] → 8 * b.ahead.length + 1 ≤ allowance →
    Silent b (Grammar.operators allowance least operand b).2 →
    Derived a (.expr least) (some (Grammar.operators allowance least operand b).1,
      (Grammar.operators allowance least operand b).2)
  unary : ∀ a, 8 * a.ahead.length + 3 ≤ allowance → Silent a (Grammar.unary allowance a).2 →
    Derived a .operand (Grammar.unary allowance a)
  postfixes : ∀ a operand b shape, Forms a operand b shape → Derives .access b.look [shape] →
    8 * b.ahead.length + 2 ≤ allowance → Silent b (Grammar.postfixes allowance operand b).2 →
    Derived a .operand (some (Grammar.postfixes allowance operand b).1,
      (Grammar.postfixes allowance operand b).2)
  argList : ∀ a opening rest, a.words = opening :: rest → 8 * a.ahead.length + 1 ≤ allowance →
    Silent a (Grammar.argList allowance a) → ∃ closing row, closing.kind = .rightParen ∧
      Takes a (Grammar.argList allowance a)
        [.node .argList (.word opening :: (row ++ [.word closing]))] ∧
      Derives (.items .argument) (some closing) row
  memberName : ∀ a, 8 * a.ahead.length + 1 ≤ allowance →
    Silent a (Grammar.memberName allowance a) →
    ∃ row, Takes a (Grammar.memberName allowance a) row ∧
      Derives .member (Grammar.memberName allowance a).look row
  primary : ∀ a, 8 * a.ahead.length + 1 ≤ allowance → Silent a (Grammar.primary allowance a).2 →
    Derived a .atom (Grammar.primary allowance a)

namespace SoundRules

theorem zero : SoundRules 0 where
  expr _ a h := absurd h (by omega)
  operators _ _ _ b _ _ _ h := absurd h (by omega)
  unary a h := absurd h (by omega)
  postfixes _ _ b _ _ _ h := absurd h (by omega)
  argList a _ _ _ h := absurd h (by omega)
  memberName a h := absurd h (by omega)
  primary a h := absurd h (by omega)

variable {allowance : Nat} (rules : SoundRules allowance)
include rules

theorem expr_succ (least : Nat) (a : State) (hallowance : 8 * a.ahead.length + 4 ≤ allowance + 1)
    (hsilent : Silent a (Grammar.expr (allowance + 1) least a).2) :
    Derived a (.expr least) (Grammar.expr (allowance + 1) least a) := by
  revert hsilent
  have hunary := rules.unary a (by omega)
  rw [Grammar.expr]
  -- Without an operand nothing was read silently; with one the loop goes on behind it.
  split
  · rename_i after heq
    intro hsilent
    rw [heq] at hunary
    rcases hunary hsilent with ⟨completed, _, hsome, _⟩
    exact absurd hsome (by simp only [reduceCtorEq, not_false_eq_true])
  · rename_i operand after heq
    intro hsilent
    have houtcome := (exprRules allowance).unary a
    rw [heq] at hunary houtcome
    have hparts := Silent.of_suffix hsilent houtcome.suffix (houtcome.suffix_operators _ _)
    rcases hunary hparts.1 with ⟨completed, shape, hsome, hforms, hderives⟩
    injection hsome with hsome
    have hoperand : Forms a operand after shape := hsome ▸ hforms
    have hlength := hoperand.takes.length
    exact rules.operators least a operand after shape hoperand (.operation hderives) (by omega)
      hparts.2

/-- An operand is read behind the operator ahead. -/
theorem derives_behind {a : State} {op : Word} {rest : List Word} (hwords : a.words = op :: rest)
    (hallowance : 8 * a.ahead.length ≤ allowance + 4) (power : Nat)
    (hsilent : Silent a (Grammar.expr allowance power a.bump).2) :
    ∃ right, Takes a (Grammar.expr allowance power a.bump).2 [.word op, right] ∧
      Derives (.expr power) (Grammar.expr allowance power a.bump).2.look [right] := by
  have hbump := (Takes.bump hwords).1
  have hlength := hbump.length_word
  have hparts := hsilent.split (Accounted.bump a) (accounted_expr _ _ _)
  rcases (rules.expr power a.bump (by omega) hparts.2).takes with ⟨right, hright, hderives⟩
  exact ⟨right, hbump.trans hright, hderives⟩

/-- The rest of a conditional is read behind its question mark. -/
theorem derives_ternary {a middle : State} {question : Word} {rest : List Word}
    (hwords : a.words = question :: rest) (hquestion : question.kind = .question)
    (hallowance : 8 * a.ahead.length ≤ allowance)
    (hmiddle : middle = if a.bump.isAt .colon then a.bump else (Grammar.expr allowance 0 a.bump).2)
    (hsilent : Silent a (Grammar.expr allowance ternaryRight (middle.expect .colon)).2) :
    ∃ row, Takes a (Grammar.expr allowance ternaryRight (middle.expect .colon)).2 row ∧
      (Grammar.expr allowance ternaryRight (middle.expect .colon)).2.ahead.length <
        a.ahead.length ∧ ∀ least shape, Derives (.operation least) (some question) [shape] →
        least ≤ ternaryLeft → Derives (.operation least)
          (Grammar.expr allowance ternaryRight (middle.expect .colon)).2.look
          [.node .ternaryExpr (shape :: row)] := by
  have hbump := (Takes.bump hwords).1
  have hlength := hbump.length_word
  have hexpr (power : Nat) (state : State) :
      Accounted state (Grammar.expr allowance power state).2 := accounted_expr _ _ _
  have hpart : Accounted a.bump middle := by
    rw [hmiddle]
    split
    · exact .refl _
    · exact hexpr 0 _
  have htail : Accounted middle (Grammar.expr allowance ternaryRight (middle.expect .colon)).2 :=
    (Accounted.expect _ _).trans (hexpr _ _)
  have hparts := (hsilent.split (Accounted.bump a) (hpart.trans htail)).2.split hpart htail
  have hsplit := hparts.2.split (Accounted.expect _ _) (hexpr _ _)
  rcases hsplit.1.expect (by decide) with ⟨colon, hcolon, hlook, hexpect⟩
  have hlength' := hexpect.length
  -- What is left to do, once it is known what stands in the middle.
  have hfinish (row : List Shape) (hrow : Takes a.bump middle row) :
      ∃ right, Takes a (Grammar.expr allowance ternaryRight (middle.expect .colon)).2
        (.word question :: (row ++ [.word colon, right])) ∧
        Derives (.expr ternaryRight)
          (Grammar.expr allowance ternaryRight (middle.expect .colon)).2.look [right] := by
    have hlength'' := hrow.length
    rcases (rules.expr ternaryRight (middle.expect .colon) (by omega) hsplit.2).takes with
      ⟨right, hright, hderives⟩
    exact ⟨right, hbump.trans (hrow.trans (hexpect.trans hright)), hderives⟩
  have hshorter (row : List Shape) (final : State) (h : Takes a final (.word question :: row)) :
      final.ahead.length < a.ahead.length := by
    have hlength := h.length
    rw [Shape.wordsOf_cons, Shape.words_word, List.length_append, List.length_singleton] at hlength
    omega
  -- With the `:` right behind the `?` there is no middle.
  by_cases hat : a.bump.isAt .colon = true
  · rw [if_pos hat] at hmiddle
    rcases hfinish [] (hmiddle ▸ .refl _) with ⟨right, htakes, hright⟩
    refine ⟨_, htakes, hshorter _ _ htakes, fun least shape hshape hleast => ?_⟩
    exact .short hshape hquestion hleast hcolon hright
  · rw [if_neg hat] at hmiddle
    have hinner : Silent a.bump (Grammar.expr allowance 0 a.bump).2 := hmiddle ▸ hparts.1
    rcases (rules.expr 0 a.bump (by omega) hinner).takes with ⟨inner, htakes, hderives⟩
    rw [← hmiddle] at htakes hderives
    rw [hlook] at hderives
    rcases hfinish [inner] htakes with ⟨right, htakes, hright⟩
    refine ⟨_, htakes, hshorter _ _ htakes, fun least shape hshape hleast => ?_⟩
    exact .ternary hshape hquestion hleast hderives hcolon hright

omit rules in
/-- What is read around an operand is silent where the loop is that goes on with it. -/
theorem silent_operators {kind : Kind} (hkind : kind ≠ .tombstone) {least : Nat} {a b c : State}
    {operand : Completed} {shape : Shape} (hforms : Forms a operand b shape)
    (haccounted : Accounted (b.precede operand) c)
    (hsilent : Silent b
      (Grammar.operators allowance least ⟨b.mark, kind⟩ (c.close b.mark kind)).2) :
    Silent (b.precede operand) c ∧ Silent (c.close b.mark kind)
      (Grammar.operators allowance least ⟨b.mark, kind⟩ (c.close b.mark kind)).2 := by
  have hnode := hforms.outcome.around hkind haccounted
  rcases haccounted with ⟨row, hrow⟩
  exact Silent.of_suffix hsilent hrow.diagnostics (hnode.suffix_operators _ _)

/-- The loop goes on with a node around its operand. -/
theorem operators_around {kind : Kind} (hkind : kind ≠ .tombstone) {least : Nat} {a b c : State}
    {operand : Completed} {shape : Shape} {row : List Shape} (hforms : Forms a operand b shape)
    (hrow : Takes (b.precede operand) c row) (hallowance : 8 * c.ahead.length + 1 ≤ allowance)
    (hderives : Derives (.operation least) c.look [.node kind (shape :: row)])
    (hsilent : Silent (c.close b.mark kind)
      (Grammar.operators allowance least ⟨b.mark, kind⟩ (c.close b.mark kind)).2) :
    Derived a (.expr least)
      (some (Grammar.operators allowance least ⟨b.mark, kind⟩ (c.close b.mark kind)).1,
        (Grammar.operators allowance least ⟨b.mark, kind⟩ (c.close b.mark kind)).2) :=
  rules.operators least a _ _ _ (hforms.around hkind hrow) hderives hallowance hsilent

/-- The loop goes on behind an operator with a node around both its operands. -/
theorem operators_behind {kind : Kind} (hkind : kind ≠ .tombstone) {least power : Nat} {a b : State}
    {operand : Completed} {shape : Shape} {op : Word} {rest : List Word}
    (hforms : Forms a operand b shape) (hwords : b.words = op :: rest)
    (hallowance : 8 * b.ahead.length + 1 ≤ allowance + 1)
    (hderives : ∀ look right, Derives (.expr power) look [right] →
      Derives (.operation least) look [.node kind [shape, .word op, right]])
    (hsilent : Silent b (Grammar.operators allowance least ⟨b.mark, kind⟩
      ((Grammar.expr allowance power (b.precede operand).bump).2.close b.mark kind)).2) :
    Derived a (.expr least)
      (some (Grammar.operators allowance least ⟨b.mark, kind⟩
          ((Grammar.expr allowance power (b.precede operand).bump).2.close b.mark kind)).1,
        (Grammar.operators allowance least ⟨b.mark, kind⟩
          ((Grammar.expr allowance power (b.precede operand).bump).2.close b.mark kind)).2) := by
  have hwords' : (b.precede operand).words = op :: rest := hwords
  have hahead : (b.precede operand).ahead.length = b.ahead.length := rfl
  have hparts := silent_operators hkind hforms
    ((Accounted.bump _).trans (accounted_expr allowance power _)) hsilent
  rcases rules.derives_behind hwords' (by omega) power hparts.1 with ⟨right, htakes, hright⟩
  have hlength := htakes.length
  refine rules.operators_around hkind hforms htakes ?_ (hderives _ _ hright) hparts.2
  simp only [Shape.wordsOf_cons, Shape.words_word, List.length_append, List.length_cons] at hlength
  omega

/-- The loop goes on behind `?` with a conditional. -/
theorem operators_question {least : Nat} {a b : State} {operand : Completed} {shape : Shape}
    {question : Word} {rest : List Word} (hforms : Forms a operand b shape)
    (hwords : b.words = question :: rest) (hquestion : question.kind = .question)
    (hleast : least ≤ ternaryLeft) (hallowance : 8 * b.ahead.length + 1 ≤ allowance + 1)
    (hderives : Derives (.operation least) (some question) [shape])
    (hsilent : Silent b (Grammar.operators allowance least ⟨b.mark, .ternaryExpr⟩
      ((Grammar.expr allowance ternaryRight ((if (b.precede operand).bump.isAt .colon
        then (b.precede operand).bump
        else (Grammar.expr allowance 0 (b.precede operand).bump).2).expect .colon)).2.close b.mark
          .ternaryExpr)).2) :
    Derived a (.expr least)
      (some (Grammar.operators allowance least ⟨b.mark, .ternaryExpr⟩
          ((Grammar.expr allowance ternaryRight ((if (b.precede operand).bump.isAt .colon
            then (b.precede operand).bump
            else (Grammar.expr allowance 0 (b.precede operand).bump).2).expect .colon)).2.close
              b.mark .ternaryExpr)).1,
        (Grammar.operators allowance least ⟨b.mark, .ternaryExpr⟩
          ((Grammar.expr allowance ternaryRight ((if (b.precede operand).bump.isAt .colon
            then (b.precede operand).bump
            else (Grammar.expr allowance 0 (b.precede operand).bump).2).expect .colon)).2.close
              b.mark .ternaryExpr)).2) := by
  have hwords' : (b.precede operand).words = question :: rest := hwords
  have hahead : (b.precede operand).ahead.length = b.ahead.length := rfl
  have hkind : Kind.ternaryExpr ≠ .tombstone := by decide
  have hmiddle (state : State) : Accounted state
      (if state.isAt .colon then state else (Grammar.expr allowance 0 state).2) := by
    split
    · exact .refl _
    · exact accounted_expr _ _ _
  have hparts := silent_operators hkind hforms ((Accounted.bump _).trans ((hmiddle _).trans
    ((Accounted.expect _ _).trans (accounted_expr _ _ _)))) hsilent
  rcases rules.derives_ternary hwords' hquestion (by omega) rfl hparts.1 with
    ⟨row, htakes, hlength, hternary⟩
  exact rules.operators_around hkind hforms htakes (by omega)
    (hternary least shape hderives hleast) hparts.2

/-- The operators behind an operand are read one at a time. -/
theorem operators_succ (least : Nat) (a : State) (operand : Completed) (b : State) (shape : Shape)
    (hforms : Forms a operand b shape) (hderives : Derives (.operation least) b.look [shape])
    (hallowance : 8 * b.ahead.length + 1 ≤ allowance + 1)
    (hsilent : Silent b (Grammar.operators (allowance + 1) least operand b).2) :
    Derived a (.expr least) (some (Grammar.operators (allowance + 1) least operand b).1,
      (Grammar.operators (allowance + 1) least operand b).2) := by
  -- Where the loop stops, what it has is an expression.
  have hdone (hlook : b.look.any (continuesExpr least operand.kind) = false) :
      Derived a (.expr least) (some operand, b) :=
    ⟨operand, shape, rfl, hforms, .expr hderives (by rw [hforms.kind, hlook])⟩
  revert hsilent
  rcases hwords : b.words with _ | ⟨op, rest⟩
  · rw [Grammar.operators]
    simp only [State.isAt, State.kind_of_words_nil hwords, binding?]
    intro _
    exact hdone (by rw [State.look_of_words_nil hwords]; rfl)
  rw [State.look_of_words hwords] at hderives hdone
  rw [Option.any_some, continuesExpr] at hdone
  rw [Grammar.operators]
  dsimp only
  simp only [State.isAt_of_words hwords, State.kind_of_words hwords, State.text_of_words hwords]
  -- The loop asks for an assignment, then for `?`, then for an operator that binds tightly enough.
  split
  · rename_i htarget
    intro hsilent
    rw [Bool.and_eq_true, Bool.or_eq_true, beq_iff_eq, beq_iff_eq] at htarget
    exact rules.operators_behind (by decide) hforms hwords hallowance
      (fun _ _ => .assign hderives htarget.1 (by rw [hforms.kind, htarget.2])) hsilent
  rename_i htarget
  rw [if_neg htarget] at hdone
  split
  · rename_i hquestion
    rw [if_pos hquestion] at hdone
    split
    · rename_i hleast
      intro _
      exact hdone (decide_eq_false (by omega))
    · rename_i hleast
      exact rules.operators_question hforms hwords (beq_iff_eq.mp hquestion) (by omega) hallowance
        hderives
  rename_i hquestion
  rw [if_neg hquestion] at hdone
  split
  · rename_i hbinding
    intro _
    rw [hbinding] at hdone
    exact hdone rfl
  rename_i binding hbinding
  rw [hbinding, Option.any_some] at hdone
  split
  · rename_i hleast
    intro _
    exact hdone (decide_eq_false (by omega))
  · rename_i hleast
    intro hsilent
    exact rules.operators_behind (binding?_kind_ne hbinding) hforms hwords hallowance
      (fun _ _ => .binary hderives hbinding (by omega)) hsilent

theorem unary_succ (a : State) (hallowance : 8 * a.ahead.length + 3 ≤ allowance + 1)
    (hsilent : Silent a (Grammar.unary (allowance + 1) a).2) :
    Derived a .operand (Grammar.unary (allowance + 1) a) := by
  revert hsilent
  rw [Grammar.unary]
  split
  · rename_i hat
    intro hsilent
    rw [Bool.and_eq_true, State.isAt, beq_iff_eq] at hat
    rcases State.words_of_kind hat.1 (by decide) with ⟨op, rest, hwords, hkind⟩
    have hleading : isLeading op = true := by
      rw [isLeading, Bool.and_eq_true, ← State.text_of_words hwords]
      exact ⟨beq_iff_eq.mpr hkind, hat.2⟩
    have hwords' : a.start.words = op :: rest := hwords
    have hahead : a.start.ahead.length = a.ahead.length := rfl
    rcases rules.derives_behind hwords' (by omega) _ hsilent with ⟨right, htakes, hright⟩
    exact ⟨_, _, rfl, htakes.close (by decide), .leading hleading hright⟩
  -- No operator stands in front: the operand is an atom and what follows it.
  have hprimary := rules.primary a (by omega)
  have houtcome := (exprRules allowance).primary a
  split
  · rename_i after heq
    intro hsilent
    rw [heq] at hprimary
    rcases hprimary hsilent with ⟨completed, _, hsome, _⟩
    exact absurd hsome (by simp only [reduceCtorEq, not_false_eq_true])
  · rename_i operand after heq
    intro hsilent
    rw [heq] at hprimary houtcome
    have hparts := Silent.of_suffix hsilent houtcome.suffix (houtcome.suffix_postfixes _)
    rcases hprimary hparts.1 with ⟨completed, shape, hsome, hforms, hderives⟩
    injection hsome with hsome
    have hoperand : Forms a operand after shape := hsome ▸ hforms
    have hlength := hoperand.takes.length
    exact rules.postfixes a operand after shape hoperand (.access hderives) (by omega) hparts.2

omit rules in
/-- What is read around an operand is silent where the loop is that goes on with it. -/
theorem silent_postfixes {kind : Kind} (hkind : kind ≠ .tombstone) {a b c : State}
    {operand : Completed} {shape : Shape} (hforms : Forms a operand b shape)
    (haccounted : Accounted (b.precede operand) c)
    (hsilent : Silent b
      (Grammar.postfixes allowance ⟨b.mark, kind⟩ (c.close b.mark kind)).2) :
    Silent (b.precede operand) c ∧ Silent (c.close b.mark kind)
      (Grammar.postfixes allowance ⟨b.mark, kind⟩ (c.close b.mark kind)).2 := by
  have hnode := hforms.outcome.around hkind haccounted
  rcases haccounted with ⟨row, hrow⟩
  exact Silent.of_suffix hsilent hrow.diagnostics (hnode.suffix_postfixes _)

/-- The loop goes on with a node around its operand, where something was read. -/
theorem postfixes_around {kind : Kind} (hkind : kind ≠ .tombstone) {a b c : State}
    {operand : Completed} {shape first : Shape} {row : List Shape}
    (hforms : Forms a operand b shape) (hfirst : first.words ≠ [])
    (hrow : Takes (b.precede operand) c (first :: row))
    (hallowance : 8 * b.ahead.length + 2 ≤ allowance + 1)
    (hderives : Derives .access c.look [.node kind (shape :: first :: row)])
    (hsilent : Silent (c.close b.mark kind)
      (Grammar.postfixes allowance ⟨b.mark, kind⟩ (c.close b.mark kind)).2) :
    Derived a .operand
      (some (Grammar.postfixes allowance ⟨b.mark, kind⟩ (c.close b.mark kind)).1,
        (Grammar.postfixes allowance ⟨b.mark, kind⟩ (c.close b.mark kind)).2) := by
  have hlength := hrow.length
  have hahead : (b.precede operand).ahead.length = b.ahead.length := rfl
  -- The row holds a word, so the next round has fewer tokens ahead.
  have hpos := List.length_pos_iff.mpr hfirst
  rw [Shape.wordsOf_cons, List.length_append] at hlength
  refine rules.postfixes a _ _ _ (hforms.around hkind hrow) hderives ?_ hsilent
  show 8 * c.ahead.length + 2 ≤ allowance
  omega

/-- The loop goes on with a member behind an arrow or a double colon. -/
theorem postfixes_member {kind : Kind} (hkind : kind ≠ .tombstone) {a b : State}
    {operand : Completed} {shape : Shape} {op : Word} {rest : List Word}
    (hforms : Forms a operand b shape) (hwords : b.words = op :: rest)
    (hop : accessKind? op.kind = some kind) (hallowance : 8 * b.ahead.length + 2 ≤ allowance + 1)
    (hderives : Derives .access (some op) [shape])
    (hsilent : Silent b (Grammar.postfixes allowance ⟨b.mark, kind⟩
      ((Grammar.memberName allowance (b.precede operand).bump).close b.mark kind)).2) :
    Derived a .operand (some (Grammar.postfixes allowance ⟨b.mark, kind⟩
      ((Grammar.memberName allowance (b.precede operand).bump).close b.mark kind)).1,
      (Grammar.postfixes allowance ⟨b.mark, kind⟩
        ((Grammar.memberName allowance (b.precede operand).bump).close b.mark kind)).2) := by
  have hwords' : (b.precede operand).words = op :: rest := hwords
  have hahead : (b.precede operand).ahead.length = b.ahead.length := rfl
  have hbump := (Takes.bump hwords').1
  have hlength := hbump.length_word
  have haccounted := (exprRules allowance).memberName (b.precede operand).bump
  have hparts := silent_postfixes hkind hforms ((Accounted.bump _).trans haccounted) hsilent
  have hinner := hparts.1.split (Accounted.bump _) haccounted
  rcases rules.memberName _ (by omega) hinner.2 with ⟨row, hrow, hname⟩
  have hword : (Shape.word op).words ≠ [] := List.cons_ne_nil _ _
  exact rules.postfixes_around hkind hforms hword (hbump.trans hrow) hallowance
    (.memberOf hderives hop hname) hparts.2

/-- The loop goes on with the arguments of a call. -/
theorem postfixes_call {a b : State} {operand : Completed} {shape : Shape} {opening : Word}
    {rest : List Word} (hforms : Forms a operand b shape) (hwords : b.words = opening :: rest)
    (hopening : opening.kind = .leftParen) (hallowance : 8 * b.ahead.length + 2 ≤ allowance + 1)
    (hderives : Derives .access (some opening) [shape])
    (hsilent : Silent b (Grammar.postfixes allowance ⟨b.mark, .callExpr⟩
      ((Grammar.argList allowance (b.precede operand)).close b.mark .callExpr)).2) :
    Derived a .operand (some (Grammar.postfixes allowance ⟨b.mark, .callExpr⟩
      ((Grammar.argList allowance (b.precede operand)).close b.mark .callExpr)).1,
      (Grammar.postfixes allowance ⟨b.mark, .callExpr⟩
        ((Grammar.argList allowance (b.precede operand)).close b.mark .callExpr)).2) := by
  have hwords' : (b.precede operand).words = opening :: rest := hwords
  have hahead : (b.precede operand).ahead.length = b.ahead.length := rfl
  have hkind : Kind.callExpr ≠ .tombstone := by decide
  have hparts := silent_postfixes hkind hforms ((exprRules allowance).argList _) hsilent
  rcases rules.argList _ opening rest hwords' (by omega) hparts.1 with
    ⟨closing, row, hclosing, hlist, hrow⟩
  have hnode : (Shape.node .argList (.word opening :: (row ++ [Shape.word closing]))).words ≠ [] :=
    List.cons_ne_nil _ _
  exact rules.postfixes_around hkind hforms hnode hlist hallowance
    (.call hderives hopening hclosing hrow) hparts.2

/-- The loop goes on with an index, or with brackets that hold none. -/
theorem postfixes_index {a b : State} {operand : Completed} {shape : Shape} {opening : Word}
    {rest : List Word} (hforms : Forms a operand b shape) (hwords : b.words = opening :: rest)
    (hopening : opening.kind = .leftBracket) (hallowance : 8 * b.ahead.length + 2 ≤ allowance + 1)
    (hderives : Derives .access (some opening) [shape])
    (hsilent : Silent b (Grammar.postfixes allowance ⟨b.mark, .indexExpr⟩
      (((if (b.precede operand).bump.isAt .rightBracket then (b.precede operand).bump
        else (Grammar.expr allowance 0 (b.precede operand).bump).2).expect .rightBracket).close
          b.mark .indexExpr)).2) :
    Derived a .operand (some (Grammar.postfixes allowance ⟨b.mark, .indexExpr⟩
      (((if (b.precede operand).bump.isAt .rightBracket then (b.precede operand).bump
        else (Grammar.expr allowance 0 (b.precede operand).bump).2).expect .rightBracket).close
          b.mark .indexExpr)).1,
      (Grammar.postfixes allowance ⟨b.mark, .indexExpr⟩
        (((if (b.precede operand).bump.isAt .rightBracket then (b.precede operand).bump
          else (Grammar.expr allowance 0 (b.precede operand).bump).2).expect .rightBracket).close
            b.mark .indexExpr)).2) := by
  have hwords' : (b.precede operand).words = opening :: rest := hwords
  have hahead : (b.precede operand).ahead.length = b.ahead.length := rfl
  have hbump := (Takes.bump hwords').1
  have hlength := hbump.length_word
  have hkind : Kind.indexExpr ≠ .tombstone := by decide
  have hword : (Shape.word opening).words ≠ [] := List.cons_ne_nil _ _
  have hinner (state : State) : Accounted state
      (if state.isAt .rightBracket then state else (Grammar.expr allowance 0 state).2) := by
    split
    · exact .refl _
    · exact accounted_expr _ _ _
  have hrest := (hinner (b.precede operand).bump).trans (Accounted.expect _ .rightBracket)
  have hparts := silent_postfixes hkind hforms ((Accounted.bump _).trans hrest) hsilent
  have hsplit := (hparts.1.split (Accounted.bump _) hrest).2.split (hinner _) (.expect _ _)
  rcases hsplit.2.expect (by decide) with ⟨closing, hclosing, hlook, hexpect⟩
  by_cases hat : (b.precede operand).bump.isAt .rightBracket = true
  · rw [if_pos hat] at hparts hexpect ⊢
    exact rules.postfixes_around hkind hforms hword (hbump.trans hexpect) hallowance
      (.append hderives hopening hclosing) hparts.2
  · rw [if_neg hat] at hparts hexpect hsplit hlook ⊢
    rcases (rules.expr 0 _ (by omega) hsplit.1).takes with ⟨inner, htakes, hinner⟩
    rw [hlook] at hinner
    exact rules.postfixes_around hkind hforms hword (hbump.trans (htakes.trans hexpect))
      hallowance (.index hderives hopening hclosing hinner) hparts.2

/-- What stands behind an operand is read one access at a time. -/
theorem postfixes_succ (a : State) (operand : Completed) (b : State) (shape : Shape)
    (hforms : Forms a operand b shape) (hderives : Derives .access b.look [shape])
    (hallowance : 8 * b.ahead.length + 2 ≤ allowance + 1)
    (hsilent : Silent b (Grammar.postfixes (allowance + 1) operand b).2) :
    Derived a .operand (some (Grammar.postfixes (allowance + 1) operand b).1,
      (Grammar.postfixes (allowance + 1) operand b).2) := by
  -- Where the loop stops, what it has is an operand.
  have hdone (hlook : b.look.any continuesAccess = false) :
      Derived a .operand (some operand, b) :=
    ⟨operand, shape, rfl, hforms, .operand hderives hlook⟩
  revert hsilent
  rcases hwords : b.words with _ | ⟨op, rest⟩
  · rw [Grammar.postfixes]
    simp only [State.kind_of_words_nil hwords]
    intro _
    exact hdone (by rw [State.look_of_words_nil hwords]; rfl)
  rw [State.look_of_words hwords] at hderives hdone
  rw [Option.any_some, continuesAccess] at hdone
  have hwords' : (b.precede operand).words = op :: rest := hwords
  rw [Grammar.postfixes]
  dsimp only
  rw [State.kind_of_words hwords, State.text_of_words hwords]
  split <;> rename_i hop
  · exact rules.postfixes_call hforms hwords hop hallowance hderives
  · exact rules.postfixes_index hforms hwords hop hallowance hderives
  · exact rules.postfixes_member (by decide) hforms hwords (by rw [hop]; rfl) hallowance hderives
  · exact rules.postfixes_member (by decide) hforms hwords (by rw [hop]; rfl) hallowance hderives
  · rw [hop] at hdone
    split <;> rename_i hstep <;> intro hsilent
    · have hkind : Kind.postfixExpr ≠ .tombstone := by decide
      have hword : (Shape.word op).words ≠ [] := List.cons_ne_nil _ _
      have hparts := silent_postfixes hkind hforms (Accounted.bump _) hsilent
      exact rules.postfixes_around hkind hforms hword (Takes.bump hwords').1 hallowance
        (.step hderives hop hstep) hparts.2
    · refine hdone ?_
      rw [not_or] at hstep
      simp only [beq_eq_false_iff_ne.mpr hstep.1, beq_eq_false_iff_ne.mpr hstep.2, Bool.or_self]
  · -- No other kind continues an access.
    rename_i hparen hbracket harrow hcolon
    intro _
    refine hdone ?_
    split
    · exact absurd ‹_› hparen
    · exact absurd ‹_› hbracket
    · exact absurd ‹_› harrow
    · exact absurd ‹_› hcolon
    · exact absurd ‹_› hop
    · rfl

theorem argList_succ (a : State) (opening : Word) (rest : List Word)
    (hwords : a.words = opening :: rest) (hallowance : 8 * a.ahead.length + 1 ≤ allowance + 1)
    (hsilent : Silent a (Grammar.argList (allowance + 1) a)) :
    ∃ closing row, closing.kind = .rightParen ∧
      Takes a (Grammar.argList (allowance + 1) a)
        [.node .argList (.word opening :: (row ++ [Shape.word closing]))] ∧
      Derives (.items .argument) (some closing) row := by
  rw [Grammar.argList] at hsilent ⊢
  have hwords' : a.start.words = opening :: rest := hwords
  have hahead : a.start.ahead.length = a.ahead.length := rfl
  have hitem := soundItem_argument (rules.expr 0) (accounted_expr allowance 0)
  rcases derives_delimited hitem hwords' (by omega) (by omega) hsilent with
    ⟨closing, row, hclosing, htakes, hrow⟩
  exact ⟨closing, row, hclosing, (htakes.close (by decide)).takes, hrow⟩

theorem memberName_succ (a : State) (hallowance : 8 * a.ahead.length + 1 ≤ allowance + 1)
    (hsilent : Silent a (Grammar.memberName (allowance + 1) a)) :
    ∃ row, Takes a (Grammar.memberName (allowance + 1) a) row ∧
      Derives .member (Grammar.memberName (allowance + 1) a).look row := by
  revert hsilent
  rw [Grammar.memberName]
  split
  · rename_i hkind
    intro _
    rcases State.words_of_kind hkind (by decide) with ⟨name, rest, hwords, hname⟩
    exact ⟨_, (Takes.bump hwords).1, .memberWord (.inl hname)⟩
  · rename_i hkind
    intro _
    rcases State.words_of_kind hkind (by decide) with ⟨name, rest, hwords, hname⟩
    have hwords' : a.start.words = name :: rest := hwords
    exact ⟨_, ((Takes.bump hwords').1.close (by decide)).takes, .memberVariable hname⟩
  · rename_i hkind
    intro hsilent
    rcases State.words_of_kind hkind (by decide) with ⟨opening, rest, hwords, hopening⟩
    have hinner : Accounted a (Grammar.expr allowance 0 a.bump).2 :=
      (Accounted.bump _).trans (accounted_expr _ _ _)
    -- A reserved word is a name here, and whatever else is ahead is reported.
    have hparts := hsilent.split hinner (.expect _ _)
    rcases hparts.2.expect (by decide) with ⟨closing, hclosing, hlook, hexpect⟩
    rcases rules.derives_behind hwords (by omega) 0 hparts.1 with ⟨inner, htakes, hderives⟩
    rw [hlook] at hderives
    exact ⟨_, htakes.trans hexpect, .memberBraces hopening hclosing hderives⟩
  · split
    · rename_i hkeyword
      intro _
      have hend : a.kind ≠ .endOfFile := by
        intro hend
        rw [hend] at hkeyword
        exact absurd hkeyword (by decide)
      rcases State.words_of_kind rfl hend with ⟨name, rest, hwords, hname⟩
      exact ⟨_, (Takes.bump hwords).1, .memberWord (.inr (hname ▸ hkeyword))⟩
    · intro hsilent
      exact absurd hsilent (Silent.not_cons rfl)

omit rules in
theorem primary_token {a : State} {kind : Kind} (hkind : operandKind? a.kind = some kind) :
    Derived a .atom (a.leaf kind) := by
  have hend : a.kind ≠ .endOfFile := by
    intro hend
    rw [hend] at hkind
    exact absurd hkind (by simp only [operandKind?, reduceCtorEq, not_false_eq_true])
  rcases State.words_of_kind rfl hend with ⟨tok, rest, hwords, htok⟩
  have hwords' : a.start.words = tok :: rest := hwords
  exact ⟨_, _, rfl, (Takes.bump hwords').1.close (operandKind?_ne hkind), .token (htok ▸ hkind)⟩

theorem primary_paren {a : State} (hat : a.kind = .leftParen)
    (hallowance : 8 * a.ahead.length ≤ allowance)
    (hsilent : Silent a.start
      ((Grammar.expr allowance 0 a.start.bump).2.expect .rightParen)) :
    Derived a .atom (((Grammar.expr allowance 0 a.start.bump).2.expect .rightParen).complete
      a.mark .parenExpr) := by
  rcases State.words_of_kind hat (by decide) with ⟨opening, rest, hwords, hopening⟩
  have hwords' : a.start.words = opening :: rest := hwords
  have hahead : a.start.ahead.length = a.ahead.length := rfl
  have hinner := (Accounted.bump a.start).trans (accounted_expr allowance 0 _)
  have hparts := hsilent.split hinner (.expect _ _)
  rcases hparts.2.expect (by decide) with ⟨closing, hclosing, hlook, hexpect⟩
  rcases rules.derives_behind hwords' (by omega) 0 hparts.1 with ⟨inner, htakes, hderives⟩
  rw [hlook] at hderives
  exact ⟨_, _, rfl, (htakes.trans hexpect).close (by decide), .paren hopening hclosing hderives⟩

theorem primary_array {a : State} (hat : a.kind = .leftBracket)
    (hallowance : 8 * a.ahead.length ≤ allowance)
    (hsilent : Silent a.start
      (delimited arrayItems (arrayItem (Grammar.expr allowance 0)) allowance a.start)) :
    Derived a .atom ((delimited arrayItems (arrayItem (Grammar.expr allowance 0)) allowance
      a.start).complete a.mark .arrayExpr) := by
  rcases State.words_of_kind hat (by decide) with ⟨opening, rest, hwords, hopening⟩
  have hwords' : a.start.words = opening :: rest := hwords
  have hahead : a.start.ahead.length = a.ahead.length := rfl
  have hitem := soundItem_element (rules.expr 0) (accounted_expr allowance 0)
  rcases derives_delimited hitem hwords' (by omega) (by omega) hsilent with
    ⟨closing, row, hclosing, htakes, hrow⟩
  exact ⟨_, _, rfl, htakes.close (by decide), .array hopening hclosing hrow⟩

theorem primary_new {a : State} (hat : a.kind = .newKw)
    (hallowance : 8 * a.ahead.length ≤ allowance)
    (hsilent : Silent a.start (if (className a.start.bump).isAt .leftParen
      then Grammar.argList allowance (className a.start.bump) else className a.start.bump)) :
    Derived a .atom ((if (className a.start.bump).isAt .leftParen
      then Grammar.argList allowance (className a.start.bump)
      else className a.start.bump).complete a.mark .newExpr) := by
  rcases State.words_of_kind hat (by decide) with ⟨keyword, rest, hwords, hkeyword⟩
  have hwords' : a.start.words = keyword :: rest := hwords
  have hahead : a.start.ahead.length = a.ahead.length := rfl
  have hbump := (Takes.bump hwords').1
  have hlength := hbump.length_word
  have hclass := accounted_className a.start.bump
  have harguments (state : State) : Accounted state
      (if state.isAt .leftParen then Grammar.argList allowance state else state) :=
    .optional _ ((exprRules allowance).argList state)
  have hparts := (hsilent.split (Accounted.bump _) (hclass.trans (harguments _))).2.split hclass
    (harguments _)
  rcases derives_className hparts.1 with ⟨name, kind, hname, htakes⟩
  have hlength' := htakes.length
  by_cases hparen : (className a.start.bump).isAt .leftParen = true
  · rw [if_pos hparen] at hparts ⊢
    rcases State.words_of_kind (beq_iff_eq.mp hparen) (by decide) with
      ⟨opening, more, hmore, hopening⟩
    rcases rules.argList _ opening more hmore (by omega) hparts.2 with
      ⟨closing, row, hclosing, hlist, hrow⟩
    exact ⟨_, _, rfl, (hbump.trans (htakes.trans hlist)).close (by decide),
      .newWith hkeyword hname hopening hclosing hrow⟩
  · rw [if_neg hparen]
    exact ⟨_, _, rfl, (hbump.trans htakes).close (by decide),
      .new hkeyword hname (State.aheadKind_ne hparen)⟩

/-- An operand without operators is read by its first token. -/
theorem primary_succ (a : State) (hallowance : 8 * a.ahead.length + 1 ≤ allowance + 1)
    (hsilent : Silent a (Grammar.primary (allowance + 1) a).2) :
    Derived a .atom (Grammar.primary (allowance + 1) a) := by
  revert hsilent
  rw [Grammar.primary]
  split
  · rename_i kind hkind
    exact fun _ => primary_token hkind
  split <;> rename_i hat
  · exact rules.primary_paren hat (by omega)
  · exact rules.primary_array hat (by omega)
  · exact rules.primary_new hat (by omega)
  · -- What begins no operand is reported.
    intro hsilent
    exfalso
    revert hsilent
    show ¬ Silent a (missingExpr a)
    rw [missingExpr]
    split
    · exact Silent.not_cons rfl
    · exact Silent.not_reject (.refl _)

end SoundRules

/-- What the rules for expressions read silently, the grammar derives. -/
theorem soundRules (allowance : Nat) : SoundRules allowance := by
  induction allowance with
  | zero => exact .zero
  | succ allowance rules =>
    exact ⟨rules.expr_succ, rules.operators_succ, rules.unary_succ, rules.postfixes_succ,
      rules.argList_succ, rules.memberName_succ, rules.primary_succ⟩

end Grammar

end PhpAssist

import PhpAssist.Proofs.Parts
import PhpAssist.Proofs.Productions

/-!
# How operators nest

The tree of a clean text says by its nesting what the table of powers says by its numbers. Whatever
begins the last operand of an operation was taken by a loop that asked for the right power of the
operation, so it binds to its left at least that tightly. Whatever ends the first operand had the
operator in front of it when it ended, and left it to the operation, so the operator was too weak
for it.

Two things stay outside. An assignment asks nothing of the place where it stands, so it may begin an
operand of any operation; what can be said about it is that its target can be assigned to. And
between `?` and `:` anything may stand.

## Main definitions

* `Shape.AtFront`, `Shape.AtBack`: What begins and what ends a shape.
* `Shape.leftPower?`, `Shape.rightPower?`: What an operation binds with to its left, and what it asks
  of its last operand.
* `Shape.Nests`: An operation whose operands respect its powers.
* `Shape.Chains`: An operation that is grouped to one side with others of its power.
* `Shape.OwnsAssignments`: A node in which assignment operators have their targets.

## Theorems

* `Grammar.Derives.le_leftPower`: What begins an expression binds as tightly as was asked for.
* `Grammar.Derives.lt_rightPower`: What ends an expression asks for more than the operator behind it
  has.
* `Parse.operators_nest`: How operators nest in a text without diagnostics.
-/

namespace PhpAssist

namespace Shape

/-- What stands at the front of a shape: the shape itself, or what stands at the front of its first
    part. -/
inductive AtFront : Shape → Shape → Prop
  | self (shape : Shape) : AtFront shape shape
  | first {kind : Kind} {children : List Shape} {first part : Shape}
      (hfirst : children.head? = some first) (h : AtFront first part) :
      AtFront (.node kind children) part

/-- What stands at the back of a shape: the shape itself, or what stands at the back of its last
    part. -/
inductive AtBack : Shape → Shape → Prop
  | self (shape : Shape) : AtBack shape shape
  | last {kind : Kind} {children : List Shape} {last part : Shape}
      (hlast : children.getLast? = some last) (h : AtBack last part) :
      AtBack (.node kind children) part

/-- The operator of an operation with two operands. -/
def infix? : Shape → Option Word
  | .node .binaryExpr [_, .word op, _] | .node .concatExpr [_, .word op, _] => some op
  | _ => none

/-- The entry of the table for the operator of an operation. -/
def binding? (shape : Shape) : Option Grammar.Binding :=
  shape.infix?.bind fun op => Grammar.binding? op.kind op.text

/-- What an operation binds with to its left. An assignment takes its target whatever is asked for,
    and a leading operator has nothing to its left. -/
def leftPower? : Shape → Option Nat
  | .node .binaryExpr children => (binding? (.node .binaryExpr children)).map (·.left)
  | .node .concatExpr children => (binding? (.node .concatExpr children)).map (·.left)
  | .node .ternaryExpr _ => some Grammar.ternaryLeft
  | _ => none

/-- What an operation asks of its last operand. -/
def rightPower? : Shape → Option Nat
  | .node .binaryExpr children => (binding? (.node .binaryExpr children)).map (·.right)
  | .node .concatExpr children => (binding? (.node .concatExpr children)).map (·.right)
  | .node .ternaryExpr _ => some Grammar.ternaryRight
  | .node .assignExpr _ => some Grammar.assignmentPower
  | .node .prefixExpr _ => some Grammar.leadingPower
  | _ => none

/-- Whether an operation is one of `**` and `??`. -/
def isRightward (shape : Shape) : Bool :=
  shape.infix?.any fun op =>
    op.kind == .operator && ["**".toList, "??".toList].contains (Text.lower op.text)

/-- An operation whose operands respect its powers. -/
structure Nests (shape : Shape) : Prop where
  right : ∃ power operand, shape.rightPower? = some power ∧
    shape.children.getLast? = some operand ∧
    ∀ part, AtFront operand part → ∀ other, part.leftPower? = some other → power ≤ other
  left : shape.kind ≠ .prefixExpr → ∃ power operand, shape.leftPower? = some power ∧
    shape.children.head? = some operand ∧
    ∀ part, AtBack operand part → ∀ other, part.rightPower? = some other → power < other

/-- An operation next to another one of the same power has it to its left, unless it is one of `**`
    and `??`, which have it to their right. -/
structure Chains (shape : Shape) : Prop where
  rightward : ∀ power operand, shape.leftPower? = some power →
    shape.children.getLast? = some operand → operand.leftPower? = some power →
    shape.isRightward = true
  leftward : ∀ power operand, shape.leftPower? = some power →
    shape.children.head? = some operand → operand.leftPower? = some power →
    shape.isRightward = false

/-- An assignment operator among the children of a node stands behind something that can be assigned
    to, in an assignment of it. The only other place for one is in front of the default of a
    parameter. -/
def OwnsAssignments (shape : Shape) : Prop :=
  ∀ op, .word op ∈ shape.children → op.kind = .equals ∨ op.kind = .assignOp →
    shape.kind = .param ∧ op.kind = .equals ∨
      ∃ target value, shape = .node .assignExpr [target, .word op, value] ∧
        Grammar.isAssignable target.kind = true

/-! ## Powers of a node -/

theorem leftPower?_binary {op : Word} {binding : Grammar.Binding} {left right : Shape}
    (h : Grammar.binding? op.kind op.text = some binding) :
    leftPower? (.node binding.kind [left, .word op, right]) = some binding.left := by
  rcases Grammar.kind_binding? h with hkind | hkind
  all_goals
    simp only [hkind, leftPower?, binding?, infix?, Option.bind_some, h, Option.map_some]

theorem rightPower?_binary {op : Word} {binding : Grammar.Binding} {left right : Shape}
    (h : Grammar.binding? op.kind op.text = some binding) :
    rightPower? (.node binding.kind [left, .word op, right]) = some binding.right := by
  rcases Grammar.kind_binding? h with hkind | hkind
  all_goals
    simp only [hkind, rightPower?, binding?, infix?, Option.bind_some, h, Option.map_some]

theorem leftPower?_eq_none {kind : Kind} {children : List Shape}
    (h : Grammar.isOperation kind = false) : leftPower? (.node kind children) = none := by
  cases kind
  all_goals first | rfl | exact absurd h (by decide)

theorem rightPower?_eq_none {kind : Kind} {children : List Shape}
    (h : Grammar.isOperation kind = false) (hleading : kind ≠ .prefixExpr) :
    rightPower? (.node kind children) = none := by
  cases kind
  all_goals first | rfl | exact absurd h (by decide) | exact absurd rfl hleading

/-- No word has a left power, nor has anything at its front. -/
theorem AtFront.leftPower?_word {word : Word} {part : Shape} (h : AtFront (.word word) part) :
    part.leftPower? = none := by
  cases h with
  | self => rfl

theorem AtBack.rightPower?_word {word : Word} {part : Shape} (h : AtBack (.word word) part) :
    part.rightPower? = none := by
  cases h with
  | self => rfl

/-- A bound on the left powers at the front of a node: one for the node and one for its first
    part. -/
theorem AtFront.le_of_first {kind : Kind} {first part : Shape} {more : List Shape}
    {asked power : Nat} (h : AtFront (.node kind (first :: more)) part)
    (hpower : part.leftPower? = some power)
    (hself : ∀ own, leftPower? (.node kind (first :: more)) = some own → asked ≤ own)
    (hfirst : AtFront first part → asked ≤ power) : asked ≤ power := by
  cases h with
  | self => exact hself power hpower
  | first hhead h =>
    rw [List.head?_cons, Option.some.injEq] at hhead
    exact hfirst (hhead ▸ h)

/-- A bound on the right powers at the back of a node: one for the node and one for its last
    part. -/
theorem AtBack.lt_of_last {kind : Kind} {last part : Shape} {children : List Shape}
    {power asked : Nat} (h : AtBack (.node kind children) part)
    (hasked : part.rightPower? = some asked) (hlast : children.getLast? = some last)
    (hself : ∀ own, rightPower? (.node kind children) = some own → power < own)
    (hback : AtBack last part → power < asked) : power < asked := by
  cases h with
  | self => exact hself asked hasked
  | last hend h =>
    rw [hlast, Option.some.injEq] at hend
    exact hback (hend ▸ h)

end Shape

namespace Grammar

open Shape (AtFront AtBack)

/-- What a place in an expression asks of the operations at the front of what stands there. In the
    places behind which operators come only later there are none, whatever is asked for. -/
def Symbol.Asks : Symbol → Nat → Prop
  | .atom, _ | .access, _ | .operand, _ => True
  | .operation least, asked | .expr least, asked => asked = least
  | .member, _ | .item _, _ | .items _, _ => False

theorem isOperation_operandKind? {token kind : Kind} (h : operandKind? token = some kind) :
    isOperation kind = false ∧ kind ≠ .prefixExpr := by
  rcases kind_of_operandKind? h with ⟨_, rfl⟩ | rfl | rfl | ⟨_, rfl⟩ <;> decide

theorem isOperation_accessKind? {token kind : Kind} (h : accessKind? token = some kind) :
    isOperation kind = false ∧ kind ≠ .prefixExpr := by
  rcases kind_of_accessKind? h with ⟨_, rfl⟩ | ⟨_, rfl⟩ <;> decide

theorem isOperation_classKind? {token kind : Kind} (h : classKind? token = some kind) :
    isOperation kind = false ∧ kind ≠ .prefixExpr := by
  rcases kind_of_classKind? h with ⟨_, rfl⟩ | ⟨_, rfl⟩ <;> decide

/-- What begins an expression binds to its left as tightly as was asked for. -/
theorem Derives.le_leftPower {symbol : Symbol} {look : Option Word} {row : List Shape}
    (h : Derives symbol look row) : ∀ {asked power : Nat} {whole part : Shape},
      symbol.Asks asked → row = [whole] → AtFront whole part → part.leftPower? = some power →
        asked ≤ power := by
  -- A node that is no operation has no power itself, and a word at its front has none either.
  have hnone {kind : Kind} {children : List Shape} {asked : Nat} (hkind : isOperation kind = false) :
      ∀ own, Shape.leftPower? (.node kind children) = some own → asked ≤ own := by
    intro own hown
    rw [Shape.leftPower?_eq_none hkind] at hown
    exact absurd hown (by simp only [reduceCtorEq, not_false_eq_true])
  have hword {word : Word} {part : Shape} {asked power : Nat}
      (hpower : part.leftPower? = some power) (hpart : AtFront (.word word) part) :
      asked ≤ power := by
    rw [hpart.leftPower?_word] at hpower
    exact absurd hpower (by simp only [reduceCtorEq, not_false_eq_true])
  induction h with
  | token hkind =>
    rintro asked power whole part _ ⟨⟩ hpart hpower
    exact hpart.le_of_first hpower (hnone (isOperation_operandKind? hkind).1) (hword hpower)
  | paren | array | new | newWith | leading =>
    rintro asked power whole part _ ⟨⟩ hpart hpower
    exact hpart.le_of_first hpower (hnone rfl) (hword hpower)
  | call _ _ _ _ ih _ | append _ _ _ ih | index _ _ _ _ ih _ | step _ _ _ ih =>
    rintro asked power whole part _ ⟨⟩ hpart hpower
    exact hpart.le_of_first hpower (hnone rfl) fun hfirst => ih trivial rfl hfirst hpower
  | memberOf _ hop _ ih _ =>
    rintro asked power whole part _ ⟨⟩ hpart hpower
    exact hpart.le_of_first hpower (hnone (isOperation_accessKind? hop).1) fun hfirst =>
      ih trivial rfl hfirst hpower
  | access _ ih | operand _ _ ih | operation _ ih =>
    intro asked power whole part _ hrow
    exact ih trivial hrow
  | expr _ _ ih =>
    intro asked power whole part hasked hrow
    exact ih hasked hrow
  | assign _ _ _ _ ih _ =>
    -- An assignment has no left power: it was not compared with what was asked for.
    rintro asked power whole part hasked ⟨⟩ hpart hpower
    refine hpart.le_of_first hpower (fun own hown => ?_) fun hfirst => ih hasked rfl hfirst hpower
    exact absurd hown (by simp only [Shape.leftPower?, reduceCtorEq, not_false_eq_true])
  | short _ _ hleast _ _ ih _ | ternary _ _ hleast _ _ _ ih _ _ =>
    rintro asked power whole part hasked ⟨⟩ hpart hpower
    refine hpart.le_of_first hpower (fun own hown => ?_) fun hfirst => ih hasked rfl hfirst hpower
    rw [Shape.leftPower?, Option.some.injEq] at hown
    rw [hasked, ← hown]
    exact hleast
  | binary _ hbinding hleast _ ih _ =>
    rintro asked power whole part hasked ⟨⟩ hpart hpower
    refine hpart.le_of_first hpower (fun own hown => ?_) fun hfirst => ih hasked rfl hfirst hpower
    rw [Shape.leftPower?_binary hbinding, Option.some.injEq] at hown
    rw [hasked, ← hown]
    exact hleast
  | memberWord | memberVariable | memberBraces | argument | element | keyed | param |
      paramDefault | none | last | more =>
    intro asked power whole part hasked
    exact hasked.elim

/-- What a word between two operands binds with to its left. -/
def leftPowerOf? (op : Word) : Option Nat :=
  if op.kind = .question then some ternaryLeft else (binding? op.kind op.text).map (·.left)

/-- An expression stops in front of an operator that is weaker than what was asked for. -/
theorem Derives.stops {asked power : Nat} {op : Word} {whole : Shape}
    (h : Derives (.expr asked) (some op) [whole]) (hop : leftPowerOf? op = some power) :
    power < asked := by
  cases h with
  | expr _ hlook =>
    rw [Option.any_some] at hlook
    -- The loop went past every operator that binds tightly enough, so this one does not.
    unfold leftPowerOf? at hop
    split at hop
    · rename_i hquestion
      rw [continuesExpr_question hquestion, decide_eq_false_iff_not] at hlook
      rw [← Option.some.inj hop]
      exact Nat.lt_of_not_le hlook
    · rcases Option.map_eq_some_iff.mp hop with ⟨binding, hbinding, hpower⟩
      rw [continuesExpr_binding hbinding, decide_eq_false_iff_not] at hlook
      rw [← hpower]
      exact Nat.lt_of_not_le hlook

/-- What ends an expression in front of an operator asked for more than the operator has: it would
    have taken the operator otherwise. -/
theorem Derives.lt_rightPower {symbol : Symbol} {look : Option Word} {row : List Shape}
    (h : Derives symbol look row) : ∀ {op : Word} {power asked : Nat} {whole part : Shape},
      look = some op → leftPowerOf? op = some power → symbol.isExpr = true → row = [whole] →
        AtBack whole part → part.rightPower? = some asked → power < asked := by
  have hnone {kind : Kind} {children : List Shape} {power : Nat} (hkind : isOperation kind = false)
      (hleading : kind ≠ .prefixExpr) :
      ∀ own, Shape.rightPower? (.node kind children) = some own → power < own := by
    intro own hown
    rw [Shape.rightPower?_eq_none hkind hleading] at hown
    exact absurd hown (by simp only [reduceCtorEq, not_false_eq_true])
  -- Calls, lists and the like end in a word, or in a node that does.
  have hword {word : Word} {part : Shape} {power asked : Nat}
      (hasked : part.rightPower? = some asked) (hpart : AtBack (.word word) part) :
      power < asked := by
    rw [hpart.rightPower?_word] at hasked
    exact absurd hasked (by simp only [reduceCtorEq, not_false_eq_true])
  have hclosed {kind : Kind} {children : List Shape} {word : Word} {part : Shape}
      {power asked : Nat} (hkind : isOperation kind = false ∧ kind ≠ .prefixExpr)
      (hlast : children.getLast? = some (.word word)) (hpart : AtBack (.node kind children) part)
      (hasked : part.rightPower? = some asked) : power < asked :=
    hpart.lt_of_last hasked hlast (hnone hkind.1 hkind.2) (hword hasked)
  have hbrackets {opening closing : Word} (row : List Shape) :
      (Shape.word opening :: (row ++ [Shape.word closing])).getLast? = some (.word closing) := by
    rw [← List.cons_append, List.getLast?_concat]
  -- The last operand of an operation asked for the right power of the operation.
  have hoperation {kind : Kind} {children : List Shape} {right part : Shape} {op : Word}
      {power asked own : Nat} (hop : leftPowerOf? op = some power)
      (hown : Shape.rightPower? (.node kind children) = some own)
      (hlast : children.getLast? = some right) (hright : Derives (.expr own) (some op) [right])
      (hpart : AtBack (.node kind children) part) (hasked : part.rightPower? = some asked)
      (ih : AtBack right part → power < asked) : power < asked := by
    refine hpart.lt_of_last hasked hlast (fun other hother => ?_) ih
    rw [hown, Option.some.injEq] at hother
    exact hother ▸ hright.stops hop
  induction h with
  | token hkind =>
    rintro op power asked whole part _ _ _ ⟨⟩ hpart hasked
    exact hclosed (isOperation_operandKind? hkind) rfl hpart hasked
  | paren | append | index | step =>
    rintro op power asked whole part _ _ _ ⟨⟩ hpart hasked
    exact hclosed ⟨rfl, by decide⟩ rfl hpart hasked
  | array =>
    rintro op power asked whole part _ _ _ ⟨⟩ hpart hasked
    exact hclosed ⟨rfl, by decide⟩ (hbrackets _) hpart hasked
  | new _ hname _ =>
    rintro op power asked whole part _ _ _ ⟨⟩ hpart hasked
    refine hpart.lt_of_last hasked rfl (hnone rfl (by decide)) fun hlast => ?_
    exact hclosed (isOperation_classKind? hname) rfl hlast hasked
  | newWith | call =>
    rintro op power asked whole part _ _ _ ⟨⟩ hpart hasked
    refine hpart.lt_of_last hasked rfl (hnone rfl (by decide)) fun hlast => ?_
    exact hclosed ⟨rfl, by decide⟩ (hbrackets _) hlast hasked
  | memberOf _ hop hrow _ _ =>
    rintro op power asked whole part _ _ _ ⟨⟩ hpart hasked
    have hkind := isOperation_accessKind? hop
    cases hrow with
    | memberWord | memberBraces => exact hclosed hkind rfl hpart hasked
    | memberVariable =>
      refine hpart.lt_of_last hasked rfl (hnone hkind.1 hkind.2) fun hlast => ?_
      exact hclosed ⟨rfl, by decide⟩ rfl hlast hasked
  | access _ ih | operand _ _ ih | operation _ ih | expr _ _ ih =>
    intro op power asked whole part hlook hop _ hrow
    exact ih hlook hop rfl hrow
  | leading _ hright ih =>
    rintro op power asked whole part hlook hop _ ⟨⟩ hpart hasked
    exact hoperation hop rfl rfl (hlook ▸ hright) hpart hasked fun hlast =>
      ih hlook hop rfl rfl hlast hasked
  | assign _ _ _ hright _ ih =>
    rintro op power asked whole part hlook hop _ ⟨⟩ hpart hasked
    exact hoperation hop rfl rfl (hlook ▸ hright) hpart hasked fun hlast =>
      ih hlook hop rfl rfl hlast hasked
  | short _ _ _ _ hright _ ih =>
    rintro op power asked whole part hlook hop _ ⟨⟩ hpart hasked
    exact hoperation hop rfl rfl (hlook ▸ hright) hpart hasked fun hlast =>
      ih hlook hop rfl rfl hlast hasked
  | ternary _ _ _ _ _ hright _ _ ih =>
    rintro op power asked whole part hlook hop _ ⟨⟩ hpart hasked
    exact hoperation hop rfl rfl (hlook ▸ hright) hpart hasked fun hlast =>
      ih hlook hop rfl rfl hlast hasked
  | binary _ hbinding _ hright _ ih =>
    rintro op power asked whole part hlook hop _ ⟨⟩ hpart hasked
    exact hoperation hop (Shape.rightPower?_binary hbinding) rfl (hlook ▸ hright) hpart hasked
      fun hlast => ih hlook hop rfl rfl hlast hasked
  | memberWord | memberVariable | memberBraces | argument | element | keyed | param |
      paramDefault | none | last | more =>
    intro op power asked whole part _ _ hsymbol
    exact absurd hsymbol Bool.false_ne_true

/-! ## Every operation -/

/-- Whether a kind is one of operations that ask something of their operands. -/
def isAsking (kind : Kind) : Bool :=
  [.binaryExpr, .concatExpr, .ternaryExpr, .prefixExpr].contains kind

theorem isExpr_of_isAsking {kind : Kind} (h : isAsking kind = true) : kind.isExpr = true := by
  cases kind
  all_goals first | rfl | exact absurd h (by decide)

theorem isOperation_of_isAsking {kind : Kind} (h : isAsking kind = true) :
    isOperation kind = true ∨ kind = .prefixExpr := by
  cases kind
  all_goals first | exact .inl rfl | exact .inr rfl | exact absurd h (by decide)

/-- The operands of an operation respect its powers. -/
theorem Derives.nests {symbol : Symbol} {look : Option Word} {row : List Shape}
    (h : Derives symbol look row) : ∀ {shape : Shape}, row = [shape] → symbol.isExpr = true →
      isAsking shape.kind = true → shape.Nests := by
  have hnone {kind : Kind} {children : List Shape}
      (hkind : isOperation kind = false ∧ kind ≠ .prefixExpr)
      (hasking : isAsking (Shape.node kind children).kind = true) :
      (Shape.node kind children).Nests := by
    rcases isOperation_of_isAsking hasking with hoperation | hleading
    · exact absurd (hkind.1.symm.trans hoperation) Bool.false_ne_true
    · exact absurd hleading hkind.2
  -- The operator is what the first operand has in front of it.
  have hleftmost {least power : Nat} {op : Word} {left : Shape}
      (hleft : Derives (.operation least) (some op) [left]) (hop : leftPowerOf? op = some power) :
      ∀ part, AtBack left part → ∀ other, part.rightPower? = some other → power < other :=
    fun _ hpart _ hother => hleft.lt_rightPower rfl hop rfl rfl hpart hother
  have hrightmost {power : Nat} {look : Option Word} {right : Shape}
      (hright : Derives (.expr power) look [right]) :
      ∀ part, AtFront right part → ∀ other, part.leftPower? = some other → power ≤ other :=
    fun _ hpart _ hother => hright.le_leftPower rfl rfl hpart hother
  have hquestioned {question : Word} (hquestion : question.kind = .question) :
      leftPowerOf? question = some ternaryLeft := if_pos hquestion
  -- By induction: only prefixes, conditionals and binary operations ask for anything, each of the
  -- operands at its sides.
  induction h with
  | token hkind =>
    rintro shape ⟨⟩ _
    exact hnone (isOperation_operandKind? hkind)
  | paren | array | new | newWith | call | append | index | step | assign =>
    rintro shape ⟨⟩ _ hasking
    exact absurd hasking Bool.false_ne_true
  | memberOf _ hop _ _ _ =>
    rintro shape ⟨⟩ _
    exact hnone (isOperation_accessKind? hop)
  | access _ ih | operand _ _ ih | operation _ ih | expr _ _ ih =>
    intro shape hrow _
    exact ih hrow rfl
  | leading _ hinner _ =>
    rintro shape ⟨⟩ _ _
    exact {
      right := ⟨leadingPower, _, rfl, rfl, hrightmost hinner⟩
      left := fun hkind => absurd rfl hkind }
  | short hleft hquestion _ _ hright _ _ =>
    rintro shape ⟨⟩ _ _
    exact {
      right := ⟨ternaryRight, _, rfl, rfl, hrightmost hright⟩
      left := fun _ => ⟨ternaryLeft, _, rfl, rfl, hleftmost hleft (hquestioned hquestion)⟩ }
  | ternary hleft hquestion _ _ _ hright _ _ _ =>
    rintro shape ⟨⟩ _ _
    exact {
      right := ⟨ternaryRight, _, rfl, rfl, hrightmost hright⟩
      left := fun _ => ⟨ternaryLeft, _, rfl, rfl, hleftmost hleft (hquestioned hquestion)⟩ }
  | @binary _ _ op _ _ binding hleft hbinding _ hright _ _ =>
    rintro shape ⟨⟩ _ _
    have hop : leftPowerOf? op = some binding.left := by
      unfold leftPowerOf?
      split
      · rename_i hquestion
        rw [hquestion] at hbinding
        exact absurd hbinding (by simp only [binding?, reduceCtorEq, not_false_eq_true])
      · rw [hbinding, Option.map_some]
    exact {
      right := ⟨binding.right, _, Shape.rightPower?_binary hbinding, rfl, hrightmost hright⟩
      left := fun _ => ⟨binding.left, _, Shape.leftPower?_binary hbinding, rfl, hleftmost hleft hop⟩ }
  | memberWord | memberVariable | memberBraces | argument | element | keyed | param |
      paramDefault | none | last | more =>
    intro shape _ hsymbol
    exact absurd hsymbol Bool.false_ne_true

/-- Whether operators of a left power ask no more of their last operand than that. -/
def groupsRight (power : Nat) : Bool :=
  bindings.any fun entry => entry.2.1 == power && decide (entry.2.2 ≤ entry.2.1)

/-- `**` and `??` are the operators that group to the right, and no other one shares its left power
    with them. -/
theorem groupsRight_binding {kind : Kind} {text : Text} {binding : Binding}
    (h : binding? kind text = some binding) :
    groupsRight binding.left = decide (binding.right ≤ binding.left) ∧
      (kind == .operator && ["**".toList, "??".toList].contains (Text.lower text)) =
        decide (binding.right ≤ binding.left) := by
  -- The table of operators is checked entry by entry.
  have htable : ∀ entry ∈ bindings,
      groupsRight entry.2.1 = decide (entry.2.2 ≤ entry.2.1) ∧
        ["**".toList, "??".toList].contains entry.1.toList = decide (entry.2.2 ≤ entry.2.1) := by
    decide
  unfold binding? at h
  split at h
  · rw [← Option.some.inj h]
    exact ⟨by decide, rfl⟩
  · rcases Option.map_eq_some_iff.1 h with ⟨entry, hentry, rfl⟩
    have hspelling := List.find?_some hentry
    rw [← beq_iff_eq.1 hspelling]
    exact htable entry (List.mem_of_find?_eq_some hentry)
  · exact absurd h (by simp only [reduceCtorEq, not_false_eq_true])

end Grammar

namespace Shape

/-- The powers of an operation tell to which side it groups. -/
theorem groupsRight_powers {shape : Shape} {left right : Nat} (hleft : shape.leftPower? = some left)
    (hright : shape.rightPower? = some right) :
    shape.isRightward = decide (right ≤ left) ∧ Grammar.groupsRight left = decide (right ≤ left) := by
  have hbinary {kind : Kind} {children : List Shape} {left right : Nat}
      (hleft : (binding? (.node kind children)).map (·.left) = some left)
      (hright : (binding? (.node kind children)).map (·.right) = some right) :
      isRightward (.node kind children) = decide (right ≤ left) ∧
        Grammar.groupsRight left = decide (right ≤ left) := by
    rcases Option.map_eq_some_iff.mp hleft with ⟨binding, hbinding, rfl⟩
    rw [hbinding, Option.map_some, Option.some.injEq] at hright
    rcases Option.bind_eq_some_iff.mp hbinding with ⟨op, hop, hentry⟩
    have htable := Grammar.groupsRight_binding hentry
    rw [isRightward, hop, Option.any_some, ← hright]
    exact ⟨htable.2, htable.1⟩
  -- A binary operation has both powers from its entry, and a conditional its own.
  unfold leftPower? at hleft
  split at hleft
  · exact hbinary hleft hright
  · exact hbinary hleft hright
  · rw [← Option.some.inj hleft, ← Option.some.inj hright]
    exact ⟨rfl, by decide⟩
  · exact absurd hleft (by simp only [reduceCtorEq, not_false_eq_true])

theorem exists_rightPower? {shape : Shape} {left : Nat} (h : shape.leftPower? = some left) :
    ∃ right, shape.rightPower? = some right := by
  unfold leftPower? at h
  split at h
  · rcases Option.map_eq_some_iff.mp h with ⟨binding, hbinding, _⟩
    exact ⟨binding.right, by rw [rightPower?, hbinding, Option.map_some]⟩
  · rcases Option.map_eq_some_iff.mp h with ⟨binding, hbinding, _⟩
    exact ⟨binding.right, by rw [rightPower?, hbinding, Option.map_some]⟩
  · exact ⟨_, rfl⟩
  · exact absurd h (by simp only [reduceCtorEq, not_false_eq_true])

/-- An operation that respects its powers is grouped with its like as the powers say. -/
theorem Nests.chains {shape : Shape} (h : shape.Nests) : shape.Chains := by
  constructor
  · intro power operand hpower hoperand hother
    rcases h.right with ⟨asked, last, hasked, hlast, hfront⟩
    rw [hlast, Option.some.injEq] at hoperand
    have hle : asked ≤ power := hfront last (.self last) power (hoperand ▸ hother)
    rw [(groupsRight_powers hpower hasked).1, decide_eq_true_eq]
    exact hle
  · intro power operand hpower hoperand hother
    have hkind : shape.kind ≠ .prefixExpr := by
      intro hkind
      cases shape with
      | word _ => exact absurd hpower (by simp only [leftPower?, reduceCtorEq, not_false_eq_true])
      | node kind _ =>
        rw [show kind = .prefixExpr from hkind] at hpower
        exact absurd hpower (by simp only [leftPower?, reduceCtorEq, not_false_eq_true])
    rcases h.left hkind with ⟨own, first, hown, hfirst, hback⟩
    rw [hfirst, Option.some.injEq] at hoperand
    rw [hpower, Option.some.injEq] at hown
    -- The operand has the same power, so that it ends before this operation says how it groups.
    rcases exists_rightPower? hother with ⟨asked, hasked⟩
    have hlt : power < asked := hown ▸ hback first (.self first) asked (hoperand ▸ hasked)
    rcases exists_rightPower? hpower with ⟨right, hright⟩
    rw [(groupsRight_powers hpower hright).1, ← (groupsRight_powers hpower hright).2,
      (groupsRight_powers hother hasked).2, decide_eq_false_iff_not]
    exact Nat.not_le_of_lt hlt

end Shape

/-! ## Assignment operators -/

/-- A row without an assignment operator. -/
def Shape.Unassigned (row : List Shape) : Prop :=
  ∀ op, Shape.word op ∈ row → op.kind ≠ .equals ∧ op.kind ≠ .assignOp

namespace Shape.Unassigned

variable {row more : List Shape} {kind : Kind} {children : List Shape}

theorem nil : Unassigned [] := fun _ h => absurd h List.not_mem_nil

theorem append (h : Unassigned row) (hmore : Unassigned more) : Unassigned (row ++ more) := by
  intro op hop
  rcases List.mem_append.mp hop with hop | hop
  · exact h op hop
  · exact hmore op hop

theorem word {kind : Kind} {op : Word} (hkind : kind ≠ .equals ∧ kind ≠ .assignOp)
    (hop : op.kind = kind) (hmore : Unassigned more) : Unassigned (.word op :: more) := by
  intro other hother
  rcases List.mem_cons.mp hother with heq | hother
  · rw [show other = op from Shape.word.inj heq, hop]
    exact hkind
  · exact hmore other hother

theorem node (hmore : Unassigned more) : Unassigned (.node kind children :: more) := by
  intro other hother
  rcases List.mem_cons.mp hother with heq | hother
  · exact absurd heq nofun
  · exact hmore other hother

/-- A node without an assignment operator of its own. -/
theorem ownsAssignments (h : Unassigned children) : OwnsAssignments (.node kind children) := by
  intro op hop hassign
  rcases hassign with hequals | hassign
  · exact absurd hequals (h op hop).1
  · exact absurd hassign (h op hop).2

end Shape.Unassigned

namespace Grammar

open Shape (Unassigned)

theorem UnionMembers.unassigned {look : Option Word} {row : List Shape}
    (h : UnionMembers look row) : Unassigned row := by
  induction h with
  | done => exact .nil
  | more hbar hname _ ih =>
    exact .word (by decide) (Word.kind_of_isText hbar) (.word (by decide) hname ih)

theorem ParamName.unassigned {row : List Shape} (h : ParamName row) : Unassigned row := by
  have hvariable {row : List Shape} (hrow : ParamVariable row) : Unassigned row := by
    cases hrow with
    | plain hvar => exact .word (by decide) hvar .nil
    | marked hmark hvar =>
      exact .word (by decide) (Word.kind_of_isText hmark) (.word (by decide) hvar .nil)
  cases h with
  | untyped hrow => exact hvariable hrow
  | typed hrow htype =>
    cases htype
    all_goals exact .node (hvariable hrow)

/-- Between the items of a list are commas, and an expression is a node. -/
theorem Derives.unassigned {symbol : Symbol} {look : Option Word} {row : List Shape}
    (h : Derives symbol look row) : Unassigned row := by
  -- By induction: an operator that assigns stands inside of a node.
  induction h with
  | token | paren | array | new | newWith | call | append | index | memberOf | step |
      memberVariable | leading | assign | short | ternary | binary | element | keyed | param |
      paramDefault => exact .node .nil
  | access _ ih | operand _ _ ih | operation _ ih | expr _ _ ih | argument _ ih | last _ _ ih =>
    exact ih
  | memberWord hname =>
    rcases hname with hname | hkeyword
    · exact .word (by decide) hname .nil
    · refine .word ⟨fun hkind => ?_, fun hkind => ?_⟩ rfl .nil
      all_goals
        rw [hkind] at hkeyword
        exact absurd hkeyword Bool.false_ne_true
  | memberBraces hopening hclosing _ ih =>
    exact .word (by decide) hopening (ih.append (.word (by decide) hclosing .nil))
  | none => exact .nil
  | more _ hcomma _ ih ihrow => exact ih.append (.word (by decide) hcomma ihrow)

theorem Exprs.unassigned {look : Option Word} {row : List Shape} (h : Exprs look row) :
    Unassigned row := by
  induction h with
  | one hvalue _ => exact hvalue.unassigned
  | more hvalue hcomma _ ih => exact hvalue.unassigned.append (.word (by decide) hcomma ih)

theorem Guard.unassigned {row : List Shape} (h : Guard row) : Unassigned row := by
  cases h with
  | mk hopening hclosing hinner =>
    exact .word (by decide) hopening (hinner.unassigned.append (.word (by decide) hclosing .nil))

theorem LoopHead.unassigned {kind : Kind} {row : List Shape} (h : LoopHead kind row) :
    Unassigned row := by
  have htarget {look : Option Word} {row : List Shape} (hrow : EachTarget look row) :
      Unassigned row := by
    cases hrow with
    | value hvalue _ => exact hvalue.unassigned
    | keyed hkey harrow hvalue =>
      exact hkey.unassigned.append (.word (by decide) harrow hvalue.unassigned)
  have hpart {row : List Shape} {terminator : Kind} (hrow : ForPart terminator row)
      (hterminator : terminator ≠ .equals ∧ terminator ≠ .assignOp) : Unassigned row := by
    cases hrow with
    | empty hstop => exact .word hterminator hstop .nil
    | exprs hrow hstop => exact hrow.unassigned.append (.word hterminator hstop .nil)
  -- The tokens of a head are brackets, separators and `as`.
  cases h with
  | whileHead hrow => exact hrow.unassigned
  | forHead hopening hfirst hsecond hthird =>
    exact .word (by decide) hopening
      (((hpart hfirst (by decide)).append (hpart hsecond (by decide))).append
        (hpart hthird (by decide)))
  | eachHead hopening hsubject hseparator hrow hclosing =>
    exact .word (by decide) hopening (hsubject.unassigned.append
      (.word (by decide) hseparator ((htarget hrow).append (.word (by decide) hclosing .nil))))

theorem FunctionHead.unassigned {look : Option Word} {row : List Shape}
    (h : FunctionHead look row) : Unassigned row := by
  cases h with
  | @mk _ _ name _ result hname _ _ _ hresult =>
    have hnamed : Unassigned name := by
      cases hname with
      | plain hname => exact .word (by decide) hname .nil
      | marked hmark hname =>
        exact .word (by decide) (Word.kind_of_isText hmark) (.word (by decide) hname .nil)
    have hended : Unassigned result := by
      cases hresult with
      | none _ => exact .nil
      | some hcolon htype =>
        cases htype
        all_goals exact .word (by decide) hcolon (.node .nil)
    exact hnamed.append (.node hended)

theorem DerivesStmt.unassigned {part : Part} {look : Option Word} {row : List Shape}
    (h : DerivesStmt part look row) : Unassigned row := by
  induction h with
  | block | expr | echo | jump | jumpWith | choice | loop | doWhile | function | empty |
      otherwise => exact .node .nil
  | nil | noBranch => exact .nil
  | cons _ _ ih ihrow => exact ih.append ihrow
  | elseif _ _ _ _ _ ihrow => exact .node ihrow

/-- An expression owns the assignment operators in it. -/
theorem Derives.ownsAssignments {symbol : Symbol} {look : Option Word} {row : List Shape}
    (h : Derives symbol look row) : ∀ {shape : Shape}, row = [shape] → symbol.isExpr = true →
      shape.OwnsAssignments := by
  -- Every node but an assignment has children without the operators that assign.
  induction h with
  | token hkind =>
    rintro shape ⟨⟩ _
    refine (Unassigned.word ⟨fun h => ?_, fun h => ?_⟩ rfl .nil).ownsAssignments
    all_goals
      rw [h] at hkind
      exact absurd hkind nofun
  | paren hopening hclosing hinner _ =>
    rintro shape ⟨⟩ _
    exact (Unassigned.word (by decide) hopening
      (hinner.unassigned.append (.word (by decide) hclosing .nil))).ownsAssignments
  | array hopening hclosing hrow _ =>
    rintro shape ⟨⟩ _
    exact (Unassigned.word (by decide) hopening
      (hrow.unassigned.append (.word (by decide) hclosing .nil))).ownsAssignments
  | new hkeyword _ _ =>
    rintro shape ⟨⟩ _
    exact (Unassigned.word (by decide) hkeyword (.node .nil)).ownsAssignments
  | newWith hkeyword _ _ _ _ _ =>
    rintro shape ⟨⟩ _
    exact (Unassigned.word (by decide) hkeyword (.node (.node .nil))).ownsAssignments
  | access _ ih | operand _ _ ih | operation _ ih | expr _ _ ih =>
    intro shape hrow _
    exact ih hrow rfl
  | call hbase _ _ _ _ _ =>
    rintro shape ⟨⟩ _
    exact (hbase.unassigned.append (.node .nil)).ownsAssignments
  | append hbase hopening hclosing _ =>
    rintro shape ⟨⟩ _
    exact (hbase.unassigned.append
      (.word (by decide) hopening (.word (by decide) hclosing .nil))).ownsAssignments
  | index hbase hopening hclosing hinner _ _ =>
    rintro shape ⟨⟩ _
    exact (hbase.unassigned.append
      (.word (by decide) hopening
        (hinner.unassigned.append (.word (by decide) hclosing .nil)))).ownsAssignments
  | memberOf hbase hop hrow _ _ =>
    rintro shape ⟨⟩ _
    refine (hbase.unassigned.append
      (.word ⟨fun h => ?_, fun h => ?_⟩ rfl hrow.unassigned)).ownsAssignments
    all_goals
      rw [h] at hop
      exact absurd hop nofun
  | step hbase hop _ _ =>
    rintro shape ⟨⟩ _
    exact (hbase.unassigned.append (.word (by decide) hop .nil)).ownsAssignments
  | leading hop hinner _ =>
    rintro shape ⟨⟩ _
    have hkind := beq_iff_eq.mp (Bool.and_eq_true_iff.mp hop).1
    exact (Unassigned.word (by decide) hkind hinner.unassigned).ownsAssignments
  | @assign _ _ own _ _ hleft hop htarget hright _ _ =>
    rintro shape ⟨⟩ _ op hmem hassign
    -- Neither the target nor the value is an assignment operator, so the one between them is meant.
    have hother {row : List Shape} (hrow : Unassigned row) (hmem : .word op ∈ row) : False := by
      rcases hassign with hequals | hassign
      · exact (hrow op hmem).1 hequals
      · exact (hrow op hmem).2 hassign
    rcases List.mem_cons.mp hmem with heq | hmem
    · exact (hother hleft.unassigned (heq ▸ List.mem_cons_self)).elim
    · rcases List.mem_cons.mp hmem with heq | hmem
      · rw [Shape.word.inj heq]
        exact .inr ⟨_, _, rfl, htarget⟩
      · exact (hother hright.unassigned hmem).elim
  | short hleft hquestion _ hcolon hright _ _ =>
    rintro shape ⟨⟩ _
    exact (hleft.unassigned.append
      (.word (by decide) hquestion (.word (by decide) hcolon hright.unassigned))).ownsAssignments
  | ternary hleft hquestion _ hmiddle hcolon hright _ _ _ =>
    rintro shape ⟨⟩ _
    exact (hleft.unassigned.append (.word (by decide) hquestion
      (hmiddle.unassigned.append (.word (by decide) hcolon hright.unassigned)))).ownsAssignments
  | binary hleft hbinding _ hright _ _ =>
    rintro shape ⟨⟩ _
    refine (hleft.unassigned.append
      (.word ⟨fun h => ?_, fun h => ?_⟩ rfl hright.unassigned)).ownsAssignments
    all_goals
      rw [h] at hbinding
      exact absurd hbinding nofun
  | memberWord | memberVariable | memberBraces | argument | element | keyed | param |
      paramDefault | none | last | more =>
    intro shape _ hsymbol
    exact absurd hsymbol Bool.false_ne_true

theorem DerivesStmt.ownsAssignments {look : Option Word} {shape : Shape}
    (h : DerivesStmt .stmt look [shape]) : shape.OwnsAssignments := by
  have hkeyed {keyword : Word} {kind : Kind} {row : List Shape} {kinds : Kind → Option Kind}
      (hkeyword : kinds keyword.kind = some kind) (hrow : Unassigned row)
      (hequals : kinds .equals = none) (hassign : kinds .assignOp = none) :
      Unassigned (.word keyword :: row) := by
    refine .word ⟨fun h => ?_, fun h => ?_⟩ rfl hrow
    · rw [h, hequals] at hkeyword
      exact absurd hkeyword nofun
    · rw [h, hassign] at hkeyword
      exact absurd hkeyword nofun
  -- A statement has a keyword, brackets and semicolons beside its parts.
  cases h with
  | block hopening hclosing hrow =>
    exact (Unassigned.word (by decide) hopening
      (hrow.unassigned.append (.word (by decide) hclosing .nil))).ownsAssignments
  | expr hstop hvalue =>
    exact (hvalue.unassigned.append (.word (by decide) hstop .nil)).ownsAssignments
  | echo hkeyword hrow hstop =>
    exact (Unassigned.word (by decide) hkeyword
      (hrow.unassigned.append (.word (by decide) hstop .nil))).ownsAssignments
  | jump hkeyword hstop =>
    exact (hkeyed hkeyword (.word (by decide) hstop .nil) rfl rfl).ownsAssignments
  | jumpWith hkeyword hvalue hstop =>
    exact (hkeyed hkeyword (hvalue.unassigned.append (.word (by decide) hstop .nil)) rfl
      rfl).ownsAssignments
  | choice hkeyword hguard hbody hrow =>
    exact (Unassigned.word (by decide) hkeyword
      (hguard.unassigned.append (hbody.unassigned.append hrow.unassigned))).ownsAssignments
  | loop hkeyword hhead hbody =>
    exact (hkeyed hkeyword (hhead.unassigned.append hbody.unassigned) rfl rfl).ownsAssignments
  | doWhile hkeyword hbody hwhile hguard hstop =>
    exact (Unassigned.word (by decide) hkeyword (hbody.unassigned.append
      (.word (by decide) hwhile
        (hguard.unassigned.append (.word (by decide) hstop .nil))))).ownsAssignments
  | function hkeyword hhead _ _ _ =>
    exact (Unassigned.word (by decide) hkeyword
      (hhead.unassigned.append (.node .nil))).ownsAssignments
  | empty hstop => exact (Unassigned.word (by decide) hstop .nil).ownsAssignments

/-- Every node owns the assignment operators in it. -/
theorem Production.ownsAssignments {shape : Shape} (h : Production shape) :
    shape.OwnsAssignments := by
  cases h with
  | expr h => exact (h _ inert_none).ownsAssignments rfl rfl
  | arguments hopening hclosing hrow | parameters hopening hclosing hrow =>
    exact (Unassigned.word (by decide) hopening
      (hrow.unassigned.append (.word (by decide) hclosing .nil))).ownsAssignments
  | item h =>
    cases h with
    | argument hvalue => exact hvalue.ownsAssignments rfl rfl
    | element hvalue _ => exact hvalue.unassigned.ownsAssignments
    | keyed hkey harrow hvalue =>
      exact (hkey.unassigned.append (.word (by decide) harrow hvalue.unassigned)).ownsAssignments
    | param hrow _ => exact hrow.unassigned.ownsAssignments
    | paramDefault hrow hequals hvalue =>
      intro op hmem hassign
      refine .inl ⟨rfl, ?_⟩
      rcases hassign with hkind | hkind
      · exact hkind
      · -- Only the sign in front of the default assigns.
        rcases List.mem_append.mp hmem with hmem | hmem
        · exact absurd hkind (hrow.unassigned op hmem).2
        · rcases List.mem_cons.mp hmem with heq | hmem
          · rw [Shape.word.inj heq]
            exact hequals
          · exact absurd hkind (hvalue.unassigned op hmem).2
  | type h =>
    cases h with
    | plain hname hrow => exact (Unassigned.word (by decide) hname hrow.unassigned).ownsAssignments
    | optional hmark hname hrow =>
      exact (Unassigned.word (by decide) hmark
        (.word (by decide) hname hrow.unassigned)).ownsAssignments
  | stmt h => exact h.ownsAssignments
  | branch h =>
    cases h with
    | elseif hkeyword hguard hbody _ =>
      exact (Unassigned.word (by decide) hkeyword
        (hguard.unassigned.append hbody.unassigned)).ownsAssignments
    | otherwise hkeyword hbody =>
      exact (Unassigned.word (by decide) hkeyword hbody.unassigned).ownsAssignments

end Grammar

namespace Parse

variable {text : Text} {node : Node}

theorem ownsAssignments (h : (file text).diagnostics = [])
    (hnode : node ∈ (file text).root.descendants) : node.tree.shape.OwnsAssignments := by
  -- The root has a row of statements and the end; any other node is a production.
  by_cases hroot : node.tree = (file text).root.tree
  · rcases clean_file_of_diagnostics h with ⟨row, hderives, hclean⟩
    rcases hclean.root with ⟨trees, htrees, _, hrow⟩
    have hrows : Shape.Unassigned row := by
      cases hderives with
      | bare hstmts => exact hstmts.unassigned
      | tagged htag hstmts => exact .word (by decide) htag hstmts.unassigned
    have hshape : node.tree.shape =
        .node .sourceFile (row ++ [.word (Lexing.of text).last.word]) := by
      rw [hroot, htrees, ← hrow]
      exact congrArg (Shape.node .sourceFile) (Tree.shapesOf_append _ _)
    rw [hshape]
    exact (hrows.append (.word (by decide) (Lexing.kind_last text) .nil)).ownsAssignments
  · exact (production_of_mem h hnode hroot).ownsAssignments

/-- In a text without diagnostics every operation takes operands that respect the table of powers,
    hence groups with its like as the table says, and every assignment operator has its target. -/
theorem operators_nest (h : (file text).diagnostics = [])
    (hnode : node ∈ (file text).root.descendants) :
    (Grammar.isAsking node.kind = true → node.tree.shape.Nests ∧ node.tree.shape.Chains) ∧
      node.tree.shape.OwnsAssignments := by
  refine ⟨fun hasking => ?_, ownsAssignments h hnode⟩
  have hexpr : node.kind.isExpr = true := Grammar.isExpr_of_isAsking hasking
  have hnests : node.tree.shape.Nests := by
    refine (standalone_of_expr h hnode hexpr _ Grammar.inert_none).nests rfl rfl ?_
    rw [Tree.kind_shape]
    exact hasking
  exact ⟨hnests, hnests.chains⟩

/-- Powers group to the right below a leading operator, which is the first operand of a
    concatenation. -/
theorem operators_nest_powers :
    (file "<?php $x = !$a ** $b ** $c . 'd' ?: $e = 1;".toList).diagnostics = [] ∧
      ∃ node ∈ (file "<?php $x = !$a ** $b ** $c . 'd' ?: $e = 1;".toList).root.descendants,
        node.kind = .concatExpr ∧ node.tree.shape.Nests ∧ node.tree.shape.Chains ∧
          node.tree.shape.OwnsAssignments := by
  obtain ⟨hclean, hconcat⟩ :
      (file "<?php $x = !$a ** $b ** $c . 'd' ?: $e = 1;".toList).diagnostics = [] ∧
      ((file "<?php $x = !$a ** $b ** $c . 'd' ?: $e = 1;".toList).root.descendants.find?
        fun node => node.kind == .concatExpr).isSome = true := by
    decide +kernel
  rcases Option.isSome_iff_exists.mp hconcat with ⟨node, hfind⟩
  have hnode := List.mem_of_find?_eq_some hfind
  have hkind : node.kind = .concatExpr :=
    beq_iff_eq.mp (List.find?_some (p := fun node : Node => node.kind == .concatExpr) hfind)
  rcases operators_nest hclean hnode with ⟨hnests, howns⟩
  have hboth := hnests (by rw [hkind]; rfl)
  exact ⟨hclean, node, hnode, hkind, hboth.1, hboth.2, howns⟩

end Parse

end PhpAssist

import PhpAssist.Proofs.TernaryParts

/-!
# The condition that is written

The text that takes the place of an assigned conditional is put together from the texts of its
parts. It is read as those parts again: each keeps its shape in its new place, and the operators of
a branch that bind weaker than the assignment are held together by parentheses.

## Main definitions

* `Shape.isKeywordOperation`, `Shape.grouped`: The branches that get parentheses.
* `Shape.assignment`, `Shape.choice`: The shapes of what is written.

## Theorems

* `Grammar.Standalone.grouped`: A branch behind an assignment, in parentheses where it needs them.
* `Grammar.derives_choice`: The words make up a condition.
* `Spelled.block`: The words of a block, read from its text.
* `TernaryAssignment.needsParens_eq`: What gets parentheses.
-/

namespace PhpAssist

open Text

namespace Shape

/-- An expression whose outermost operator is `and`, `or` or `xor`. -/
def isKeywordOperation : Shape → Bool
  | .node .binaryExpr [_, .word op, _] =>
    ["and".toList, "or".toList, "xor".toList].contains (Text.lower op.text)
  | _ => false

/-- A value as it stands behind an assignment: in parentheses where its operator is weak. -/
def grouped (value : Shape) : Shape :=
  if value.isKeywordOperation then
    .node .parenExpr [.word ⟨.leftParen, ['(']⟩, value, .word ⟨.rightParen, [')']⟩]
  else value

/-- A block of one statement that assigns a value to a target. -/
def assignment (target : Shape) (op : Word) (value : Shape) : Shape :=
  .node .block [.word ⟨.leftBrace, ['{']⟩,
    .node .exprStmt [.node .assignExpr [target, .word op, value.grouped],
      .word ⟨.semicolon, [';']⟩],
    .word ⟨.rightBrace, ['}']⟩]

/-- A condition with an assignment to one target in each branch. -/
def choice (condition target : Shape) (op : Word) (whenTrue whenFalse : Shape) : Shape :=
  .node .ifStmt [.word ⟨.ifKw, "if".toList⟩, .word ⟨.leftParen, ['(']⟩, condition,
    .word ⟨.rightParen, [')']⟩, assignment target op whenTrue,
    .node .elseClause [.word ⟨.elseKw, "else".toList⟩, assignment target op whenFalse]]

end Shape

/-! ## What is derived -/

namespace Grammar

/-- The operators that bind weaker than an assignment are `and`, `or` and `xor`. -/
theorem isKeywordOperation_of_isWeak {shape : Shape} (h : isWeak shape = true) :
    shape.isKeywordOperation = true := by
  have htable : ∀ entry ∈ bindings, entry.2.1 < assignmentPower →
      ["and".toList, "or".toList, "xor".toList].contains entry.1.toList = true := by
    decide
  unfold isWeak at h
  split at h
  · rename_i op _
    rw [Shape.isKeywordOperation]
    rcases hbinding : binding? op.kind op.text with _ | binding
    · rw [hbinding] at h
      exact absurd h Bool.false_ne_true
    rw [hbinding, Option.any_some, decide_eq_true_eq] at h
    -- The dot binds tighter than an assignment; of the table, only the three keywords do not.
    rcases binding?_cases hbinding with rfl | ⟨entry, hentry, hspelling, rfl⟩
    · exact absurd h (by decide)
    · rw [← hspelling]
      exact htable entry hentry h
  · exact absurd h Bool.false_ne_true

/-- What is grouped can stand behind an assignment. -/
theorem Standalone.grouped {value : Shape} (h : Standalone value) {look : Option Word}
    (hlook : Inert look) : Derives (.expr assignmentPower) look [value.grouped] := by
  rw [Shape.grouped]
  split
  · have hinner := h (some ⟨.rightParen, [')']⟩) (.of_kind rfl (.inr rfl))
    have hparen : Derives .atom look [.node .parenExpr
        [.word ⟨.leftParen, ['(']⟩, value, .word ⟨.rightParen, [')']⟩]] :=
      .paren rfl rfl hinner
    exact .expr (.operation (.operand (.access hparen) hlook.access)) (hlook.expr _ _)
  · rename_i hweak
    refine h.behindAssign ?_ hlook
    by_contra hnot
    rw [Bool.not_eq_false] at hnot
    exact hweak (isKeywordOperation_of_isWeak hnot)

variable {target value : Shape} {op : Word}

theorem derives_assignment (hop : op.kind = .equals ∨ op.kind = .assignOp)
    (htarget : isAssignable target.kind = true)
    (hleft : Derives (.operation 0) (some op) [target]) (hvalue : Standalone value)
    (look : Option Word) : DerivesStmt .stmt look [Shape.assignment target op value] := by
  have hstop : Inert (some ⟨.semicolon, [';']⟩) := .of_kind rfl (.inl rfl)
  exact .block rfl rfl (.cons
    (.expr rfl (.expr (.assign hleft hop htarget (hvalue.grouped hstop)) (hstop.expr _ _))) .nil)

/-- The condition is a statement, in front of any word: no `else` behind it belongs to it. -/
theorem derives_choice {condition whenTrue whenFalse : Shape}
    (hop : op.kind = .equals ∨ op.kind = .assignOp) (htarget : isAssignable target.kind = true)
    (hleft : Derives (.operation 0) (some op) [target]) (hcondition : Standalone condition)
    (htrue : Standalone whenTrue) (hfalse : Standalone whenFalse) (look : Option Word) :
    DerivesStmt .stmt look [Shape.choice condition target op whenTrue whenFalse] := by
  have hguard : Guard [.word ⟨.leftParen, ['(']⟩, condition, .word ⟨.rightParen, [')']⟩] :=
    .mk rfl rfl (hcondition _ (.of_kind rfl (.inr rfl)))
  exact .choice rfl hguard (derives_assignment hop htarget hleft htrue _)
    (.otherwise rfl (derives_assignment hop htarget hleft hfalse _))

end Grammar

/-! ## What is read -/

namespace Spelled

variable {words : List Word} {text rest : Text}

/-- The operator of an assignment with a blank behind it. -/
theorem assignOp {entry : String × Kind} (h : Spelled words text rest)
    (hentry : entry ∈ Lexer.assignments) :
    Spelled (⟨entry.2, entry.1.toList⟩ :: words) (entry.1.toList ++ ' ' :: text) rest := by
  have hne : entry.1.toList ≠ [] := Lexer.punctuation_ne_nil entry (Lexer.assignments_subset hentry)
  refine h.word h.spaced hne ?_ (Lexer.scan_assign_space hentry text)
  simp only [Lexer.assignments, List.mem_cons, List.not_mem_nil, or_false] at hentry
  rcases hentry with rfl | rfl | rfl | rfl | rfl | rfl | rfl | rfl | rfl | rfl | rfl | rfl | rfl | rfl
  all_goals rfl

/-- A blank and an operator of an assignment let no opening line of a heredoc through. -/
theorem breaks_assignOp {entry : String × Kind} (hentry : entry ∈ Lexer.assignments) (rest : Text) :
    Heredoc.Breaks (' ' :: entry.1.toList ++ rest) := by
  have hlast : ∃ front, entry.1.toList = front ++ ['='] ∧
      ∀ c ∈ front, Heredoc.isLineBreak c = false := by
    have hall : (Lexer.assignments.all fun entry =>
        entry.1.toList == entry.1.toList.dropLast ++ ['='] &&
          entry.1.toList.dropLast.all fun c => !Heredoc.isLineBreak c) = true := by
      decide +kernel
    have hentry := List.all_eq_true.mp hall entry hentry
    rw [Bool.and_eq_true, beq_iff_eq, List.all_eq_true] at hentry
    exact ⟨_, hentry.1, fun c hc => (Bool.not_eq_true' _).mp (hentry.2 c hc)⟩
  -- The equals sign at the end is no character of an opening line.
  rcases hlast with ⟨front, hfront, hbreak⟩
  have htext : ' ' :: entry.1.toList ++ rest = (' ' :: front) ++ '=' :: rest := by
    rw [hfront]
    simp only [List.cons_append, List.append_assoc, List.nil_append]
  rw [htext]
  refine Heredoc.breaks_of_not_isOpeningChar ?_ rfl rfl
  intro c hc
  rcases List.mem_cons.mp hc with rfl | hc
  · rfl
  · exact hbreak c hc

/-- A value in front of a semicolon, in parentheses or not. -/
theorem grouped {value : Tree} (h : Spelled words (';' :: text) rest) (hvalue : value.Excerpt)
    (hparens : TernaryAssignment.needsParens value = value.shape.isKeywordOperation) :
    Spelled (value.shape.grouped.words ++ words)
      ((if TernaryAssignment.needsParens value then '(' :: value.trimmed ++ [')']
        else value.trimmed) ++ ';' :: text) rest := by
  rw [hparens, Shape.grouped]
  split
  -- From the end to the front: each word is put ahead of what is spelled already.
  · have hclosing : Spelled (⟨.rightParen, [')']⟩ :: words) ([')'] ++ ';' :: text) rest :=
      h.word h.tight (List.cons_ne_nil _ _) rfl rfl
    have hinner := hclosing.excerpt hvalue hclosing.tight (follows_of_calm rfl)
      (Heredoc.breaks_of_head rfl rfl)
    have hopening : Spelled (⟨.leftParen, ['(']⟩ ::
        (value.shape.words ++ ⟨.rightParen, [')']⟩ :: words))
          (['('] ++ (value.trimmed ++ ([')'] ++ ';' :: text))) rest :=
      hinner.word hinner.tight (List.cons_ne_nil _ _) rfl rfl
    simp only [Shape.words_node, Shape.wordsOf_cons, Shape.words_word, Shape.wordsOf_nil,
      List.cons_append, List.append_assoc, List.nil_append, List.append_nil] at hopening ⊢
    exact hopening
  · exact h.excerpt hvalue h.tight (follows_of_calm rfl) (Heredoc.breaks_of_head rfl rfl)

/-- A block with an assignment in it, up to its closing brace. -/
theorem block {found : TernaryAssignment} {value : Node} {entry : String × Kind} {after : Text}
    (h : Spelled (⟨.rightBrace, ['}']⟩ :: words) ('}' :: after) rest)
    (hentry : entry ∈ Lexer.assignments)
    (hop : found.operator.token.word = ⟨entry.2, entry.1.toList⟩)
    (htarget : found.target.tree.Excerpt) (hvalue : value.tree.Excerpt)
    (hparens : TernaryAssignment.needsParens value.tree = value.tree.shape.isKeywordOperation) :
    Spelled ((Shape.assignment found.target.tree.shape found.operator.token.word
        value.tree.shape).words ++ words)
      ('{' :: ' ' :: found.assign value ++ ' ' :: '}' :: after) rest := by
  -- From the end to the front again, with a blank around the assignment.
  have hstop : Spelled (⟨.semicolon, [';']⟩ :: ⟨.rightBrace, ['}']⟩ :: words)
      (';' :: (' ' :: '}' :: after)) rest :=
    h.word h.spaced (List.cons_ne_nil _ _) rfl rfl
  have hop' := (hstop.grouped hvalue hparens).assignOp hentry
  have hwhole := hop'.excerpt htarget hop'.spaced (follows_of_calm rfl) (breaks_assignOp hentry _)
  have hopening : Spelled (⟨.leftBrace, ['{']⟩ :: _) (['{'] ++ (' ' :: _)) rest :=
    hwhole.word hwhole.spaced (List.cons_ne_nil _ _) rfl rfl
  have htext : found.operator.token.text = entry.1.toList := congrArg Word.text hop
  rw [hop]
  simp only [Shape.assignment, Shape.words_node, Shape.wordsOf_cons, Shape.words_word,
    Shape.wordsOf_nil, TernaryAssignment.assign, Node.trimmed, htext, List.cons_append,
    List.append_assoc, List.nil_append, List.append_nil] at hopening ⊢
  exact hopening

end Spelled

namespace TernaryAssignment

/-- What gets parentheses is an operation with `and`, `or` or `xor`. -/
theorem needsParens_eq {value : Node} (h : Grammar.Standalone value.tree.shape) :
    needsParens value.tree = value.tree.shape.isKeywordOperation := by
  by_cases hkind : value.kind = .binaryExpr
  · rcases Node.binary_of_kind h hkind with ⟨left, op, right, tok, hshape, htokens, rfl, hoperator⟩
    have htoken : value.tree.childToken? (· == .operator) = some tok := by
      have hkind' : tok.kind = .operator := hoperator
      rw [Tree.childToken?, htokens, List.find?_cons, hkind']
      rfl
    have hbeq : (value.tree.kind == .binaryExpr) = true := beq_iff_eq.mpr hkind
    rw [needsParens, htoken, hshape, hbeq]
    rfl
  -- Only a binary operation can be one of keywords.
  · have hnot : value.tree.shape.isKeywordOperation = false := by
      unfold Shape.isKeywordOperation
      split
      · rename_i heq
        exact absurd (congrArg Shape.kind heq) hkind
      · rfl
    have hbeq : (value.tree.kind == .binaryExpr) = false := beq_eq_false_iff_ne.mpr hkind
    rw [needsParens, hbeq, hnot, Bool.false_and]

end TernaryAssignment

end PhpAssist

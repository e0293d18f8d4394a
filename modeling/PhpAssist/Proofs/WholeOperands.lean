import PhpAssist.Proofs.Choice
import PhpAssist.Proofs.HoistStatements
import PhpAssist.Proofs.Hoists

/-!
# What a hoist assigns

The operand of a heredoc was an argument, where every operator may stand. In a hoist it stands
behind an assignment, where `and`, `or` and `xor` bind weaker. The text of a hoist is one statement
in any case, and it assigns the whole operand unless one of the three is the outermost operator of
it. If it is, the statement assigns the first operand of the operator, and the operator is outside
the assignment. Nothing puts the operand into parentheses, as the rewrite of a conditional does with
its branches.

## Main definitions

* `Shape.Assigned`: An expression behind a variable and an equals sign, as it is read.
* `Hoist.IsReadAs`: The text of a hoist is read as one statement, with an expression in it.
* `Parse.Flawless`: A file or a fragment without diagnostics.

## Theorems

* `Grammar.Derives.exists_assigned`: What is read from an expression behind a variable and an equals
  sign.
* `Resolution.hoists_assign`: What the hoists of some arguments are read as.
* `Resolution.hoist_splits_operand`: A hoist that assigns a part of its operand.
-/

namespace PhpAssist

open Text

/-! ## Behind a variable -/

namespace Shape

/-- A variable. -/
def ofName (name : Text) : Shape := .node .variable [.word ⟨.variableName, '$' :: name⟩]

/-- What is read from an expression that stands behind a target and an equals sign: weak operators
    stay outside the assignment. -/
inductive Assigned (target : Shape) : Shape → Shape → Prop
  | whole {value : Shape} (hstrong : value.isKeywordOperation = false) :
      Assigned target value (.node .assignExpr [target, .word ⟨.equals, ['=']⟩, value])
  | first {left right front : Shape} {op : Word}
      (hweak : (node .binaryExpr [left, .word op, right]).isKeywordOperation = true)
      (hleft : Assigned target left front) :
      Assigned target (.node .binaryExpr [left, .word op, right])
        (.node .binaryExpr [front, .word op, right])

namespace Assigned

variable {target value whole : Shape}

/-- The words are those of the target, the equals sign and those of the expression. -/
theorem words (h : Assigned target value whole) :
    whole.words = target.words ++ ⟨.equals, ['=']⟩ :: value.words := by
  induction h with
  | whole _ => simp only [words_node, words_word, wordsOf_cons, wordsOf_nil, List.append_nil,
      List.singleton_append]
  | first _ _ ih =>
    simp only [words_node, wordsOf_cons, ih, List.append_assoc, List.cons_append]

/-- An expression whose outermost operator is not weak is assigned as a whole. -/
theorem eq_of_strong (h : Assigned target value whole)
    (hstrong : value.isKeywordOperation = false) :
    whole = .node .assignExpr [target, .word ⟨.equals, ['=']⟩, value] := by
  cases h with
  | whole _ => rfl
  | first hweak _ => exact absurd (hweak.symm.trans hstrong) Bool.noConfusion

/-- An expression whose outermost operator is weak is not assigned as a whole. -/
theorem kind_of_weak (h : Assigned target value whole) (hweak : value.isKeywordOperation = true) :
    whole.kind = .binaryExpr := by
  cases h with
  | whole hstrong => exact absurd (hweak.symm.trans hstrong) Bool.noConfusion
  | first _ _ => rfl

end Assigned

end Shape

namespace Grammar

/-- The operators `and`, `or` and `xor` bind weaker than an assignment. -/
theorem weak_of_isKeywordOperation {op : Word} {left right : Shape} {binding : Binding}
    (hbinding : binding? op.kind op.text = some binding)
    (h : (Shape.node binding.kind [left, .word op, right]).isKeywordOperation = true) :
    binding.kind = .binaryExpr ∧ binding.left < assignmentPower := by
  have htable : ∀ entry ∈ bindings,
      ["and".toList, "or".toList, "xor".toList].contains entry.1.toList = true →
        entry.2.1 < assignmentPower := by
    decide
  rcases binding?_cases hbinding with rfl | ⟨entry, hentry, hspelling, rfl⟩
  · exact absurd h Bool.false_ne_true
  · rw [Shape.isKeywordOperation, ← hspelling] at h
    exact ⟨rfl, htable entry hentry h⟩

/-- A variable can stand to the left of every operator. -/
theorem derives_ofName (name : Text) {op : Word} (hop : op.kind = .equals) :
    Derives (.operation 0) (some op) [Shape.ofName name] := by
  refine .operation (.operand (.access (.token rfl)) ?_)
  rw [Option.any_some, continuesAccess, hop]

/-- An expression whose outermost operator is not weak is assigned as a whole. -/
theorem Derives.assigned_whole {least : Nat} {look : Option Word} {value : Shape}
    (h : Derives (.operation least) look [value]) (name : Text)
    (hstrong : value.isKeywordOperation = false)
    (hlook : ∀ kind, look.any (continuesExpr assignmentPower kind) = false) :
    ∃ whole, Shape.Assigned (.ofName name) value whole ∧ Derives (.operation 0) look [whole] := by
  have hweak : isWeak value = false := by
    by_contra hnot
    rw [Bool.not_eq_false] at hnot
    exact absurd ((isKeywordOperation_of_isWeak hnot).symm.trans hstrong) Bool.noConfusion
  exact ⟨_, .whole hstrong, .assign (derives_ofName name rfl) (.inl rfl) rfl
    (.expr (h.raise rfl rfl hweak) (hlook _))⟩

/-- An expression behind a variable and an equals sign is an expression, too. What comes behind it
    must not go on with an operand of an assignment. -/
theorem Derives.exists_assigned {symbol : Symbol} {look : Option Word} {row : List Shape}
    (h : Derives symbol look row) (name : Text) : ∀ {least : Nat} {value : Shape},
      symbol = .operation least → row = [value] →
        (∀ kind, look.any (continuesExpr assignmentPower kind) = false) →
          ∃ whole, Shape.Assigned (.ofName name) value whole ∧
            Derives (.operation 0) look [whole] := by
  -- Only a binary operator can be weak, and only its left side is behind the equals sign then.
  induction h with
  | @operation _ _ left hleft =>
    intro least value _ hrow hlook
    rcases hrow
    refine (Derives.operation hleft : Derives (.operation 0) _ _).assigned_whole name ?_ hlook
    have hkind := hleft.kind_ne_binaryExpr (.inr (.inr rfl))
    unfold Shape.isKeywordOperation
    split
    · exact absurd rfl hkind
    · rfl
  | assign hleft hop htarget hright _ _ =>
    intro least value _ hrow hlook
    rcases hrow
    exact (Derives.assign hleft hop htarget hright).assigned_whole name rfl hlook
  | short hleft hquestion hleast hcolon hright _ _ =>
    intro least value _ hrow hlook
    rcases hrow
    exact (Derives.short hleft hquestion hleast hcolon hright).assigned_whole name rfl hlook
  | ternary hleft hquestion hleast hmiddle hcolon hright _ _ _ =>
    intro least value _ hrow hlook
    rcases hrow
    exact (Derives.ternary hleft hquestion hleast hmiddle hcolon hright).assigned_whole name rfl
      hlook
  | @binary _ _ op left right binding hleft hbinding hleast hright ih _ =>
    intro least value _ hrow hlook
    rcases hrow
    by_cases hkeyword :
        (Shape.node binding.kind [left, .word op, right]).isKeywordOperation = true
    · -- The operator ends the operand of an assignment, so its left side is assigned before it.
      rcases weak_of_isKeywordOperation hbinding hkeyword with ⟨hkind, hweak⟩
      have hstops : ∀ kind, (some op).any (continuesExpr assignmentPower kind) = false := by
        intro kind
        rw [Option.any_some, continuesExpr_binding hbinding, decide_eq_false_iff_not]
        exact Nat.not_le_of_lt hweak
      rcases ih rfl rfl hstops with ⟨front, hfront, hderives⟩
      have hrow := Derives.binary hderives hbinding (Nat.zero_le _) hright
      rw [hkind] at hkeyword hrow ⊢
      exact ⟨_, .first hkeyword hfront, hrow⟩
    · exact (Derives.binary hleft hbinding hleast hright).assigned_whole name
        (Bool.eq_false_iff.mpr hkeyword) hlook
  | _ =>
    intro _ _ hsymbol
    exact absurd hsymbol nofun

/-- An expression that stands by itself is read behind a variable, too. -/
theorem Standalone.exists_assigned {value : Shape} (h : Standalone value) (name : Text)
    {look : Option Word} (hlook : Inert look) :
    ∃ whole, Shape.Assigned (.ofName name) value whole ∧ Derives (.expr 0) look [whole] := by
  cases h look hlook with
  | expr hvalue _ =>
    rcases hvalue.exists_assigned name rfl rfl (hlook.expr _) with ⟨whole, hassigned, hderives⟩
    exact ⟨whole, hassigned, .expr hderives (hlook.expr _ _)⟩

end Grammar

/-! ## The text of a hoist -/

namespace Hoist

variable {hoist : Hoist} {value : Shape}

/-- The text of a hoist is read as one statement, which evaluates an expression. -/
def IsReadAs (hoist : Hoist) (value : Shape) : Prop :=
  ∃ parse, Parse.fragment hoist.text = .ok parse ∧ parse.finished = true ∧
    parse.root.childNodes.map (fun node => node.tree.shape) =
      [.node .exprStmt [value, .word ⟨.semicolon, [';']⟩]]

/-- A hoist with the words of an expression and a semicolon is read as the expression. -/
theorem isReadAs_of_reads (hreads : hoist.Reads (value.words ++ [⟨.semicolon, [';']⟩]))
    (hvalue : Grammar.Derives (.expr 0) (some ⟨.semicolon, [';']⟩) [value]) :
    hoist.IsReadAs value := by
  have hrow : Grammar.DerivesStmt .stmts Option.none
      [.node .exprStmt [value, .word ⟨.semicolon, [';']⟩]] :=
    .cons (.expr rfl hvalue) .nil
  have hspells : Lexing.Spells hoist.text
      (Shape.wordsOf [.node .exprStmt [value, .word ⟨.semicolon, [';']⟩]]) := by
    simp only [Shape.wordsOf_cons, Shape.wordsOf_nil, Shape.words_node, Shape.words_word,
      List.append_nil]
    exact hreads.spells
  rcases Parse.clean_fragment hspells hrow with ⟨parse, hparse, hclean⟩
  exact ⟨parse, hparse, hclean.finished, hclean.single⟩

end Hoist

/-! ## The hoists of arguments -/

/-- A file without diagnostics, or a fragment that was read. -/
inductive Parse.Flawless (text : Text) : Parse → Prop
  | file (hclean : (Parse.file text).diagnostics = []) : Flawless text (Parse.file text)
  | fragment {parse : Parse} (hparse : Parse.fragment text = .ok parse) : Flawless text parse

theorem Parse.Flawless.exists_row {text : Text} {parse : Parse} (h : Parse.Flawless text parse) :
    ∃ row, Shape.Each Grammar.Production row ∧ Parse.Clean text parse row := by
  cases h with
  | file hclean =>
    rcases Parse.clean_file_of_diagnostics hclean with ⟨row, hderives, hclean⟩
    exact ⟨row, hderives.productions, hclean⟩
  | fragment hparse =>
    rcases Parse.clean_fragment_of_diagnostics hparse with ⟨row, hderives, hclean⟩
    exact ⟨row, hderives.productions, hclean⟩

namespace Resolution

variable {operands : List Tree} {names : Names} {resolution : Resolution}

/-- A hoist is read as the operand, if that is an assignment that needs no variable, and else as
    the operand behind the variable and an equals sign. -/
theorem isReadAs_of {operand : Tree} {hoist : Hoist} (hexcerpt : operand.Excerpt)
    (hstandalone : Grammar.Standalone operand.shape) (h : Hoist.Of operand hoist) :
    ∃ value, hoist.IsReadAs value ∧
      ((Hoist.Own operand hoist ∧ value = operand.shape ∧ value.kind = .assignExpr) ∨
        (Hoist.New operand hoist ∧
          Shape.Assigned (.ofName hoist.name) operand.shape value)) := by
  have hstop : Grammar.Inert (some ⟨.semicolon, [';']⟩) := .of_kind rfl (.inl rfl)
  -- Only a new variable puts an equals sign in front of the operand.
  rcases h with hown | hnew
  · rcases hown with ⟨hclass, htarget⟩
    refine ⟨operand.shape, Hoist.isReadAs_of_reads
      (Hoist.reads_assignment hexcerpt rfl) (hstandalone _ hstop), .inl ⟨.mk hclass htarget, rfl, ?_⟩⟩
    rw [Tree.kind_shape, Tree.kind_of_assignment hclass]
  · rcases hnew with @⟨name, hneeds, hname⟩
    rcases hstandalone.exists_assigned name hstop with ⟨whole, hassigned, hderives⟩
    refine ⟨whole, Hoist.isReadAs_of_reads ?_ hderives, .inr ⟨.mk hneeds hname, hassigned⟩⟩
    rw [hassigned.words]
    exact Hoist.reads_variable hexcerpt hname rfl

/-- Every hoist of some arguments is one statement. It evaluates the operand itself, or assigns the
    operand to the new variable unless the outermost operator of the operand is `and`, `or` or
    `xor`. With one of these, only the first of its operands is assigned. -/
theorem hoists_assign {text : Text} {parse : Parse} (hparse : Parse.Flawless text parse)
    (hoperands : ∀ operand ∈ operands, ∃ args ∈ parse.root.descendants,
      args.kind = .argList ∧ operand ∈ args.tree.childNodes)
    (h : Resolution.of operands names = .ok resolution) :
    List.Forall₂ (fun operand hoist => ∃ value, hoist.IsReadAs value ∧
        ((Hoist.Own operand hoist ∧ value = operand.shape ∧ value.kind = .assignExpr) ∨
          (Hoist.New operand hoist ∧ Shape.Assigned (.ofName hoist.name) operand.shape value ∧
            (operand.shape.isKeywordOperation = false → value =
              .node .assignExpr [.ofName hoist.name, .word ⟨.equals, ['=']⟩, operand.shape]) ∧
            (operand.shape.isKeywordOperation = true → value.kind = .binaryExpr))))
      (operands.filter Tree.isHoisted) resolution.hoists := by
  rcases hparse.exists_row with ⟨row, hrow, hclean⟩
  rcases ofFrom_of_ok h with ⟨after, hfrom⟩
  -- An argument is an expression by itself, and can be taken out of the text.
  have hargument : ∀ operand ∈ operands.filter Tree.isHoisted,
      operand.Excerpt ∧ Grammar.Standalone operand.shape := by
    intro operand hoperand
    rcases hoperands operand (List.mem_filter.mp hoperand).1 with ⟨args, hargs, hkind, hmem⟩
    exact hclean.argument hrow hargs hkind hmem
  refine List.Forall₂.imp ?_
    ((List.forall₂_and_left _ _).mpr ⟨hargument, hoists_of_ofFrom hfrom⟩)
  rintro operand hoist ⟨⟨hexcerpt, hstandalone⟩, hof⟩
  rcases isReadAs_of hexcerpt hstandalone hof with ⟨value, hvalue, hown | ⟨hnew, hassigned⟩⟩
  · exact ⟨value, hvalue, .inl hown⟩
  · exact ⟨value, hvalue, .inr ⟨hnew, hassigned, hassigned.eq_of_strong, hassigned.kind_of_weak⟩⟩

/-- An assignment, a call, a sum and a weak operator as arguments of one call. -/
theorem hoists_assign_arguments :
    (Parse.file "<?php f($b = g(), h(), $x + 1, $a and $b);".toList).diagnostics = [] ∧
      ∃ args ∈ (Parse.file
          "<?php f($b = g(), h(), $x + 1, $a and $b);".toList).root.descendants,
        args.kind = .argList ∧ args.tree.childNodes.length = 4 ∧
          ∃ resolution, Resolution.of args.tree.childNodes (Names.of (Parse.file
              "<?php f($b = g(), h(), $x + 1, $a and $b);".toList).root) = .ok resolution ∧
            resolution.hoists.map Hoist.text = ["$b = g();".toList,
              "$newVarFnCall2 = h();".toList, "$newVarPhpExpression3 = $x + 1;".toList,
              "$newVarPhpExpression4 = $a and $b;".toList] ∧
            List.Forall₂ (fun operand hoist => ∃ value, hoist.IsReadAs value ∧
                ((Hoist.Own operand hoist ∧ value = operand.shape ∧ value.kind = .assignExpr) ∨
                  (Hoist.New operand hoist ∧
                    Shape.Assigned (.ofName hoist.name) operand.shape value ∧
                    (operand.shape.isKeywordOperation = false → value =
                      .node .assignExpr
                        [.ofName hoist.name, .word ⟨.equals, ['=']⟩, operand.shape]) ∧
                    (operand.shape.isKeywordOperation = true → value.kind = .binaryExpr))))
              (args.tree.childNodes.filter Tree.isHoisted) resolution.hoists := by
  generalize htext : "<?php f($b = g(), h(), $x + 1, $a and $b);".toList = text
  obtain ⟨hclean, hany⟩ :
      (Parse.file text).diagnostics = [] ∧
      (Parse.file text).root.descendants.any (fun args => args.kind == .argList &&
        args.tree.childNodes.length == 4 &&
        (Resolution.of args.tree.childNodes (Names.of (Parse.file text).root)).toOption.any
          fun resolution => resolution.hoists.map Hoist.text == ["$b = g();".toList,
            "$newVarFnCall2 = h();".toList, "$newVarPhpExpression3 = $x + 1;".toList,
            "$newVarPhpExpression4 = $a and $b;".toList]) = true := by
    rw [← htext]
    decide +kernel
  rcases List.any_eq_true.mp hany with ⟨args, hargs, htest⟩
  rw [Bool.and_eq_true, Bool.and_eq_true, beq_iff_eq, beq_iff_eq] at htest
  rcases eq_ok_of_any htest.2 with ⟨resolution, hresolution, htexts⟩
  exact ⟨hclean, args, hargs, htest.1.1, htest.1.2, resolution, hresolution, beq_iff_eq.mp htexts,
    hoists_assign (.file hclean) (fun operand hoperand => ⟨args, hargs, htest.1.1, hoperand⟩)
      hresolution⟩

/-- An argument with a weak operator is hoisted without parentheses, and the hoist is no assignment
    any more. -/
theorem hoist_splits_operand :
    (Parse.file "<?php f($a and $b);".toList).diagnostics = [] ∧
      ∃ args ∈ (Parse.file "<?php f($a and $b);".toList).root.descendants,
        args.kind = .argList ∧ ∃ resolution hoist,
          Resolution.of args.tree.childNodes
              (Names.of (Parse.file "<?php f($a and $b);".toList).root) = .ok resolution ∧
            hoist ∈ resolution.hoists ∧ ∃ parse, Parse.fragment hoist.text = .ok parse ∧
              parse.root.childNodes.map (fun stmt => (stmt.kind, stmt.childNodes.map Node.kind)) =
                [(.exprStmt, [.binaryExpr])] := by
  generalize htext : "<?php f($a and $b);".toList = text
  obtain ⟨hclean, hany⟩ :
      (Parse.file text).diagnostics = [] ∧
      (Parse.file text).root.descendants.any (fun args => args.kind == .argList &&
        (Resolution.of args.tree.childNodes (Names.of (Parse.file text).root)).toOption.any
        fun resolution => resolution.hoists.any fun hoist =>
          (Parse.fragment hoist.text).toOption.any fun parse =>
            parse.root.childNodes.map (fun stmt => (stmt.kind, stmt.childNodes.map Node.kind)) ==
              [(.exprStmt, [.binaryExpr])]) = true := by
    rw [← htext]
    decide +kernel
  rcases List.any_eq_true.mp hany with ⟨args, hargs, htest⟩
  rw [Bool.and_eq_true, beq_iff_eq] at htest
  rcases eq_ok_of_any htest.2 with ⟨resolution, hresolution, hhoists⟩
  rcases List.any_eq_true.mp hhoists with ⟨hoist, hhoist, hread⟩
  rcases eq_ok_of_any hread with ⟨parse, hparse, hkinds⟩
  exact ⟨hclean, args, hargs, htest.1, resolution, hoist, hresolution, hhoist, parse, hparse,
    beq_iff_eq.mp hkinds⟩

end Resolution

end PhpAssist

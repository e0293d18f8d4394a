import PhpAssist.Expr.Class
import PhpAssist.Proofs.Productions
import PhpAssist.Proofs.Reread
import PhpAssist.Proofs.Resolutions

/-!
# Statements that begin with a variable

Every statement but an expression begins with a word of its own, and within an expression there is no
semicolon. So code that begins with a variable and goes on up to its only semicolon is one statement,
whatever the words in between are put together to.

## Main definitions

* `Grammar.Unended`: A row without a semicolon.
* `Tree.BeginsWithVariable`: A tree whose first word is the name of a variable.

## Theorems

* `Grammar.Derives.unended`: No semicolon is in an expression.
* `Grammar.DerivesStmt.single`: Words up to the only semicolon are one statement.
* `Tree.begins_of_assignment`: An assignment to what can be read in a string begins with a variable.
-/

namespace PhpAssist

namespace Grammar

/-! ## Words of expressions -/

/-- No word of a row is a semicolon. -/
def Unended (row : List Shape) : Prop := ∀ word ∈ Shape.wordsOf row, word.kind ≠ .semicolon

namespace Unended

variable {row more : List Shape} {word : Word} {kind : Kind}

theorem nil : Unended [] := fun _ h => absurd h List.not_mem_nil

theorem append (h : Unended row) (hmore : Unended more) : Unended (row ++ more) := by
  intro it hit
  rw [Shape.wordsOf_append, List.mem_append] at hit
  rcases hit with hit | hit
  · exact h it hit
  · exact hmore it hit

theorem cons {shape : Shape} (h : Unended [shape]) (hmore : Unended more) :
    Unended (shape :: more) := append h hmore

theorem word_cons (hword : word.kind ≠ .semicolon) (hmore : Unended more) :
    Unended (.word word :: more) := by
  intro it hit
  rcases List.mem_cons.mp hit with rfl | hit
  · exact hword
  · exact hmore it hit

theorem node (h : Unended row) : Unended [.node kind row] := by
  intro it hit
  rw [Shape.wordsOf_cons, Shape.wordsOf_nil, List.append_nil, Shape.words_node] at hit
  exact h it hit

theorem inBrackets {opening closing : Word} (h : Unended row) (hopening : opening.kind ≠ .semicolon)
    (hclosing : closing.kind ≠ .semicolon) :
    Unended (.word opening :: (row ++ [Shape.word closing])) :=
  word_cons hopening (h.append (word_cons hclosing nil))

end Unended

theorem ne_semicolon {word : Word} {kind : Kind} (h : word.kind = kind) (hkind : kind ≠ .semicolon) :
    word.kind ≠ .semicolon := h ▸ hkind

theorem TypeShape.unended {look : Option Word} {type : Shape} (h : TypeShape look type) :
    Unended [type] := by
  have hname {name : Word} (h : name.kind = .name) := ne_semicolon h (by decide)
  have hmembers {row : List Shape} (hrow : UnionMembers look row) : Unended row := by
    induction hrow with
    | done => exact .nil
    | more hbar hword _ ih =>
      rw [Word.isText, Bool.and_eq_true, beq_iff_eq] at hbar
      exact .word_cons (ne_semicolon hbar.1 (by decide)) (.word_cons (hname hword) ih)
  cases h with
  | plain hword hrow => exact .node (.word_cons (hname hword) (hmembers hrow))
  | optional hmark hword hrow =>
    exact .node
      (.word_cons (ne_semicolon hmark (by decide)) (.word_cons (hname hword) (hmembers hrow)))

theorem ParamName.unended {row : List Shape} (h : ParamName row) : Unended row := by
  have hvariable {row : List Shape} (hrow : ParamVariable row) : Unended row := by
    cases hrow with
    | plain hvar => exact .word_cons (ne_semicolon hvar (by decide)) .nil
    | marked hmark hvar =>
      rw [Word.isText, Bool.and_eq_true, beq_iff_eq] at hmark
      exact .word_cons (ne_semicolon hmark.1 (by decide))
        (.word_cons (ne_semicolon hvar (by decide)) .nil)
  cases h with
  | untyped hrow => exact hvariable hrow
  | typed hrow htype => exact .cons htype.unended (hvariable hrow)

/-- There is no semicolon in an expression. -/
theorem Derives.unended {symbol : Symbol} {look : Option Word} {row : List Shape}
    (h : Derives symbol look row) : Unended row := by
  have hsome {word : Word} {found : Option Kind} {kind : Kind} (h : found = Option.some kind)
      (hnone : word.kind = .semicolon → found = Option.none) : word.kind ≠ .semicolon := fun hword =>
    absurd (h.symm.trans (hnone hword)) (by simp only [reduceCtorEq, not_false_eq_true])
  induction h with
  | token hkind => exact .node (.word_cons (hsome hkind fun hword => by rw [hword]; rfl) .nil)
  | paren hopening hclosing _ ih =>
    exact .node
      (ih.inBrackets (ne_semicolon hopening (by decide)) (ne_semicolon hclosing (by decide)))
  | array hopening hclosing _ ih =>
    exact .node
      (ih.inBrackets (ne_semicolon hopening (by decide)) (ne_semicolon hclosing (by decide)))
  | new hkeyword hname _ =>
    exact .node (.word_cons (ne_semicolon hkeyword (by decide))
      (.node (.word_cons (hsome hname fun hword => by rw [hword]; rfl) .nil)))
  | newWith hkeyword hname hopening hclosing _ ih =>
    exact .node (.word_cons (ne_semicolon hkeyword (by decide))
      (.cons (.node (.word_cons (hsome hname fun hword => by rw [hword]; rfl) .nil))
        (.node (ih.inBrackets (ne_semicolon hopening (by decide))
          (ne_semicolon hclosing (by decide))))))
  -- A production that only passes the expression on.
  | access _ ih | operand _ _ ih | operation _ ih | expr _ _ ih | argument _ ih => exact ih
  | call _ hopening hclosing _ ih ihrow =>
    exact .node (.cons ih (.node (ihrow.inBrackets (ne_semicolon hopening (by decide))
      (ne_semicolon hclosing (by decide)))))
  | append _ hopening hclosing ih =>
    exact .node (.cons ih (.word_cons (ne_semicolon hopening (by decide))
      (.word_cons (ne_semicolon hclosing (by decide)) .nil)))
  | index _ hopening hclosing _ ih ihinner =>
    exact .node (.cons ih (ihinner.inBrackets (ne_semicolon hopening (by decide))
      (ne_semicolon hclosing (by decide))))
  | memberOf _ hop _ ih ihrow =>
    exact .node (.cons ih (.word_cons (hsome hop fun hword => by rw [hword]; rfl) ihrow))
  | step _ hop _ ih => exact .node (.cons ih (.word_cons (ne_semicolon hop (by decide)) .nil))
  -- A name, an operator and a binding are asked for their kinds, and none of these is a semicolon.
  | memberWord hname =>
    refine .word_cons (fun hword => ?_) .nil
    rw [hword] at hname
    exact absurd hname (by decide)
  | memberVariable hname => exact .node (.word_cons (ne_semicolon hname (by decide)) .nil)
  | memberBraces hopening hclosing _ ih =>
    exact ih.inBrackets (ne_semicolon hopening (by decide)) (ne_semicolon hclosing (by decide))
  | leading hop _ ih =>
    refine .node (.word_cons (fun hword => ?_) ih)
    rw [isLeading, hword] at hop
    exact absurd hop Bool.false_ne_true
  | assign _ hop _ _ ih ihright =>
    refine .node (.cons ih (.word_cons (fun hword => ?_) ihright))
    rw [hword] at hop
    exact absurd hop (by decide)
  | short _ hquestion _ hcolon _ ih ihright =>
    exact .node (.cons ih (.word_cons (ne_semicolon hquestion (by decide))
      (.word_cons (ne_semicolon hcolon (by decide)) ihright)))
  | ternary _ hquestion _ _ hcolon _ ih ihmiddle ihright =>
    exact .node (.cons ih (.word_cons (ne_semicolon hquestion (by decide))
      (.cons ihmiddle (.word_cons (ne_semicolon hcolon (by decide)) ihright))))
  | binary _ hbinding _ _ ih ihright =>
    refine .node (.cons ih (.word_cons (fun hword => ?_) ihright))
    rw [hword] at hbinding
    exact absurd hbinding.symm (Option.some_ne_none _)
  | element _ _ ih => exact .node ih
  | keyed _ harrow _ ihkey ihvalue =>
    exact .node (.cons ihkey (.word_cons (ne_semicolon harrow (by decide)) ihvalue))
  | param hrow _ => exact .node hrow.unended
  | paramDefault hrow hequals _ ih =>
    exact .node (hrow.unended.append (.word_cons (ne_semicolon hequals (by decide)) ih))
  | none => exact .nil
  | last _ _ ih => exact ih
  | more _ hcomma _ ih ihrow =>
    exact .cons ih (.word_cons (ne_semicolon hcomma (by decide)) ihrow)

/-! ## Statements by their first words -/

/-- The words that begin statements other than expressions. -/
def stmtWords : List Kind :=
  [.leftBrace, .echoKw, .returnKw, .breakKw, .continueKw, .ifKw, .whileKw, .forKw, .foreachKw, .doKw,
    .functionKw, .semicolon]

/-- A statement is an expression, or begins with a word of its own. -/
theorem DerivesStmt.expr_or_word {look : Option Word} {first : Shape}
    (h : DerivesStmt .stmt look [first]) :
    (∃ value stop, first = .node .exprStmt [value, .word stop] ∧ stop.kind = .semicolon ∧
      Derives (.expr 0) (some stop) [value]) ∨
    ∃ kind word row, first = .node kind (.word word :: row) ∧ word.kind ∈ stmtWords := by
  have hword {kind node : Kind} {word : Word} {row : List Shape} (hkind : word.kind = kind)
      (hmem : kind ∈ stmtWords) :
      ∃ kind word' row', Shape.node node (.word word :: row) = .node kind (.word word' :: row') ∧
        word'.kind ∈ stmtWords := ⟨_, _, _, rfl, hkind ▸ hmem⟩
  have hjump {kind : Kind} {word : Word} (h : jumpKind? word.kind = some kind) :
      word.kind ∈ stmtWords := by
    rcases keyword_of_jumpKind? h with ⟨hkind, _⟩ | ⟨hkind, _⟩ | ⟨hkind, _⟩ <;> rw [hkind] <;> decide
  have hloop {kind : Kind} {word : Word} (h : loopKind? word.kind = some kind) :
      word.kind ∈ stmtWords := by
    rcases keyword_of_loopKind? h with ⟨hkind, _⟩ | ⟨hkind, _⟩ | ⟨hkind, _⟩ <;> rw [hkind] <;> decide
  -- Every statement but the one of an expression begins with a word of its own.
  cases h with
  | expr hstop hvalue => exact .inl ⟨_, _, rfl, hstop, hvalue⟩
  | block hopening _ _ => exact .inr (hword hopening (by decide))
  | echo hkeyword _ _ => exact .inr (hword hkeyword (by decide))
  | choice hkeyword _ _ _ => exact .inr (hword hkeyword (by decide))
  | doWhile hkeyword _ _ _ _ => exact .inr (hword hkeyword (by decide))
  | function hkeyword _ _ _ _ => exact .inr (hword hkeyword (by decide))
  | jump hkeyword _ => exact .inr (hword rfl (hjump hkeyword))
  | jumpWith hkeyword _ _ => exact .inr (hword rfl (hjump hkeyword))
  | loop hkeyword _ _ => exact .inr (hword rfl (hloop hkeyword))
  | empty hstop => exact .inr (hword hstop (by decide))

/-- A statement that begins with a variable is one expression. -/
theorem DerivesStmt.expr_of_variable {look : Option Word} {first : Shape} {word : Word}
    (h : DerivesStmt .stmt look [first]) (hwords : first.words.head? = some word)
    (hvariable : word.kind = .variableName) :
    ∃ value stop, first = .node .exprStmt [value, .word stop] ∧ stop.kind = .semicolon ∧
      Derives (.expr 0) (some stop) [value] := by
  rcases h.expr_or_word with h | ⟨kind, other, row, rfl, hother⟩
  · exact h
  · rw [Shape.words_node, Shape.wordsOf_cons, Shape.words_word, List.singleton_append,
      List.head?_cons, Option.some.injEq] at hwords
    rw [hwords, hvariable] at hother
    exact absurd hother (by decide)

/-- No expression begins with a character that is none of a token. -/
theorem Standalone.head_ne_unknown {shape : Shape} (h : Standalone shape) :
    ∃ word words, shape.words = word :: words ∧ word.kind ≠ .unknown := by
  rcases (h _ inert_none).begins with ⟨word, words, hwords, hstart⟩
  rw [Shape.wordsOf_cons, Shape.wordsOf_nil, List.append_nil] at hwords
  refine ⟨word, words, hwords, fun hkind => ?_⟩
  rw [ExprStart, hkind] at hstart
  exact absurd hstart (by decide)

/-- No statement does. -/
theorem DerivesStmt.head_ne_unknown {look : Option Word} {first : Shape}
    (h : DerivesStmt .stmt look [first]) :
    ∃ word words, first.words = word :: words ∧ word.kind ≠ .unknown := by
  rcases h.expr_or_word with ⟨value, stop, rfl, _, hvalue⟩ | ⟨kind, word, row, rfl, hword⟩
  · rcases (hvalue.standalone rfl).head_ne_unknown with ⟨word, words, hwords, hkind⟩
    refine ⟨word, words ++ [stop], ?_, hkind⟩
    rw [Shape.words_node, Shape.wordsOf_cons, hwords]
    rfl
  · refine ⟨word, Shape.wordsOf row, rfl, fun hkind => ?_⟩
    rw [hkind] at hword
    exact absurd hword (by decide)

/-- Where a semicolon is the last word of some statements, and the only one, and the first word is
    that of a variable, there is one statement. -/
theorem DerivesStmt.single {look : Option Word} {row : List Shape} {first stop : Word}
    {words : List Word} (h : DerivesStmt .stmts look row)
    (hwords : Shape.wordsOf row = first :: (words ++ [stop])) (hfirst : first.kind = .variableName)
    (hunended : ∀ word ∈ words, word.kind ≠ .semicolon) :
    ∃ stmt, row = [stmt] ∧ ∀ look, DerivesStmt .stmt look [stmt] := by
  cases h with
  | nil => exact absurd hwords nofun
  | @cons _ stmt rest hstmt hrest =>
    have hhead : stmt.words.head? = some first := by
      rcases hstmt.begins with ⟨word, more, hbegins, _⟩
      rw [Shape.wordsOf_cons, Shape.wordsOf_nil, List.append_nil] at hbegins
      rw [Shape.wordsOf_cons, hbegins, List.cons_append, List.cons.injEq] at hwords
      rw [hbegins, List.head?_cons, hwords.1]
    rcases hstmt.expr_of_variable hhead hfirst with ⟨value, end', rfl, hend, hvalue⟩
    -- The semicolon of the first statement is the last word.
    have hvalueWords := hvalue.unended
    rw [Unended, Shape.wordsOf_cons, Shape.wordsOf_nil, List.append_nil] at hvalueWords
    rw [Shape.wordsOf_cons, Shape.words_node, Shape.wordsOf_cons, Shape.wordsOf_cons,
      Shape.words_word, Shape.wordsOf_nil, List.append_nil, List.append_assoc,
      List.singleton_append, ← List.cons_append] at hwords
    have hnil : Shape.wordsOf rest = [] := by
      -- The semicolon stands at the end, or among the words, which have none.
      rcases List.append_eq_append_iff.mp hwords with ⟨more, hmore, hlast⟩ | ⟨more, hmore, hlast⟩
      · rcases more with _ | ⟨word, more⟩
        · rw [List.nil_append, List.cons.injEq] at hlast
          exact hlast.2
        · rw [List.cons_append, List.cons.injEq] at hlast
          have hmem : end' ∈ first :: words := by
            rw [hmore, hlast.1]
            exact List.mem_append_right _ List.mem_cons_self
          rcases List.mem_cons.mp hmem with heq | hmem
          · rw [← heq, hend] at hfirst
            exact absurd hfirst (by decide)
          · exact absurd hend (hunended _ hmem)
      · rcases more with _ | ⟨word, more⟩
        · rw [List.nil_append, List.cons.injEq] at hlast
          exact hlast.2.symm
        · exact absurd (List.cons.inj hlast).2.symm
            (List.append_ne_nil_of_right_ne_nil more (List.cons_ne_nil _ _))
    refine ⟨_, ?_, fun look => .expr hend hvalue⟩
    -- Another statement would have words of its own.
    cases hrest with
    | nil => rfl
    | cons hnext _ =>
      rcases hnext.begins.append with ⟨word, more, hbegins, _⟩
      rw [List.singleton_append] at hbegins
      exact absurd (hbegins.symm.trans hnil) nofun

end Grammar

/-! ## What begins with a variable -/

/-- A tree begins with the name of a variable. -/
def Tree.BeginsWithVariable (tree : Tree) : Prop :=
  ∃ word, tree.shape.words.head? = some word ∧ word.kind = .variableName

namespace Grammar

/-- What is rooted at a variable begins with its name. -/
theorem Derives.head_of_rooted {symbol : Symbol} {look : Option Word} {row : List Shape}
    (h : Derives symbol look row) : ∀ tree : Tree, row = [tree.shape] → symbol.isExpr = true →
      tree.isRootedAtVariable = true → tree.BeginsWithVariable := by
  -- An access is rooted where its base is, and begins with it.
  have haccess {base : Shape} {kind : Kind} {rest : List Shape} {look : Option Word}
      (hbase : Derives .access look [base]) (hkind : kind ≠ .variable)
      (ih : ∀ tree : Tree, [base] = [tree.shape] → Symbol.access.isExpr = true →
        tree.isRootedAtVariable = true → tree.BeginsWithVariable) (tree : Tree)
      (htree : [Shape.node kind (base :: rest)] = [tree.shape])
      (hrooted : tree.isRootedAtVariable = true) : tree.BeginsWithVariable := by
    rcases tree with tok | ⟨kind', children⟩
    · exact absurd hrooted Bool.false_ne_true
    rw [Tree.shape, List.cons.injEq, Shape.node.injEq] at htree
    rcases htree with ⟨⟨rfl, hchildren⟩, _⟩
    rcases (hbase.standalone rfl).exists_node with ⟨inner, below, rfl⟩
    rcases Tree.node_of_shapesOf hchildren.symm with ⟨below', rest', rfl, hbelow, hrest⟩
    have hfirst : (Tree.node inner below').isRootedAtVariable = true := by
      rw [Tree.isRootedAtVariable_node, beq_eq_false_iff_ne.mpr hkind, Bool.false_or,
        Bool.and_eq_true] at hrooted
      exact hrooted.2
    rcases ih (.node inner below') (by rw [Tree.shape, hbelow]) rfl hfirst with
      ⟨word, hword, hvariable⟩
    refine ⟨word, ?_, hvariable⟩
    rw [Tree.shape, Tree.shapesOf, Shape.words_node, Shape.wordsOf_cons, List.head?_append, hword]
    rfl
  -- A node of any other kind is not rooted at all.
  have hnot {tree : Tree} {kind : Kind} {children : List Shape}
      (htree : [Shape.node kind children] = [tree.shape]) (hrooted : tree.isRootedAtVariable = true)
      (hkind : (kind == .variable || (kind == .memberExpr || kind == .indexExpr)) = false) :
      tree.BeginsWithVariable := by
    rcases tree with tok | ⟨kind', below⟩
    · exact absurd hrooted Bool.false_ne_true
    rw [Tree.shape, List.cons.injEq, Shape.node.injEq] at htree
    rw [Bool.or_eq_false_iff] at hkind
    rw [Tree.isRootedAtVariable_node, ← htree.1.1, hkind.1, hkind.2] at hrooted
    exact absurd hrooted Bool.false_ne_true
  induction h with
  | @token _ tok kind hkind =>
    intro tree htree _ hrooted
    by_cases hvariable : tok.kind = .variableName
    · refine ⟨tok, ?_, hvariable⟩
      rw [← (List.cons.inj htree).1]
      rfl
    · refine hnot htree hrooted ?_
      rcases kind_of_operandKind? hkind with ⟨hname, -⟩ | rfl | rfl | ⟨_, rfl⟩
      · exact absurd hname hvariable
      all_goals rfl
  | paren | array | new | newWith =>
    intro tree htree _ hrooted
    exact hnot htree hrooted rfl
  | call | step =>
    intro tree htree _ hrooted
    exact hnot htree hrooted rfl
  | append hbase _ _ ih => exact fun tree htree _ => haccess hbase (by decide) ih tree htree
  | index hbase _ _ _ ih => exact fun tree htree _ => haccess hbase (by decide) ih tree htree
  | memberOf hbase hop _ ih =>
    refine fun tree htree _ => haccess hbase ?_ ih tree htree
    rcases kind_of_accessKind? hop with ⟨_, rfl⟩ | ⟨_, rfl⟩ <;> decide
  | access _ ih => exact fun tree htree _ => ih tree htree rfl
  | operand _ _ ih => exact fun tree htree _ => ih tree htree rfl
  | operation _ ih => exact fun tree htree _ => ih tree htree rfl
  | expr _ _ ih => exact fun tree htree _ => ih tree htree rfl
  | leading | assign | short | ternary =>
    intro tree htree _ hrooted
    exact hnot htree hrooted rfl
  | binary _ hbinding _ _ _ _ =>
    intro tree htree _ hrooted
    refine hnot htree hrooted ?_
    rcases kind_binding? hbinding with hkind | hkind
    all_goals
      rw [hkind]
      rfl
  | memberWord | memberVariable | memberBraces | argument | element | keyed | param |
      paramDefault | none | last | more =>
    intro _ _ hsymbol
    exact absurd hsymbol Bool.false_ne_true

end Grammar

/-- What can be read in a string as it is is rooted at a variable. -/
theorem Tree.rooted_of_class {kind : Kind} {children : List Tree}
    (h : (Tree.node kind children).exprClass = .simpleVariable ∨
      (Tree.node kind children).exprClass = .memberOrIndexAccess) :
    (Tree.node kind children).isRootedAtVariable = true := by
  unfold exprClass at h
  -- Only three kinds are read in place, and the test for it includes the root.
  split at h
  case h_2 hkind =>
    rw [isRootedAtVariable_node, show kind = .variable from hkind]
    rfl
  case h_3 | h_4 =>
    split at h
    · rename_i hread
      rw [isInterpolatable, Bool.and_eq_true, Bool.and_eq_true] at hread
      exact hread.1.1
    · exact absurd h (by decide)
  all_goals exact absurd h (by decide)

/-- An assignment that is its own statement begins with the variable it assigns to. -/
theorem Tree.begins_of_assignment {tree target : Tree} (h : Grammar.Standalone tree.shape)
    (hclass : tree.exprClass = .assignment)
    (htarget : Resolution.assignmentTarget? tree = some target) : tree.BeginsWithVariable := by
  rcases assign_of_shape h (kind_of_assignment hclass) with
    ⟨kind, below, tok, more, rfl, hfirst, _⟩
  -- The target is the first child, and it was classified as one that is read in place.
  have hrooted : (Tree.node kind below).isRootedAtVariable = true := by
    refine rooted_of_class ?_
    rw [Resolution.assignmentTarget?] at htarget
    dsimp only [childNodes, children, List.filter, isNode, List.head?] at htarget
    split at htarget
    · rename_i hclass
      exact .inl hclass
    · rename_i hclass
      exact .inr hclass
    · exact absurd htarget.symm (Option.some_ne_none _)
  rcases (hfirst _ Grammar.inert_none).head_of_rooted _ rfl rfl hrooted with
    ⟨word, hword, hvariable⟩
  refine ⟨word, ?_, hvariable⟩
  rw [shape, shapesOf, Shape.words_node, Shape.wordsOf_cons, List.head?_append, hword]
  rfl

end PhpAssist

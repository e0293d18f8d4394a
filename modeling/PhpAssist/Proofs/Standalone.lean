import PhpAssist.Proofs.Completeness

/-!
# Expressions out of their context

An expression of the grammar stays one when it is taken out of the code around it and put in front
of a word that continues nothing, such as a semicolon or a closing parenthesis. What the code
around it asked of its operators does not matter: an operator that was strong enough for its
surroundings is strong enough for none.

The other way round something is lost. Behind an assignment only operators count that bind tighter
than `and`, so an expression keeps its shape there unless `and`, `or` or `xor` is its outermost
operator.

## Main definitions

* `Grammar.Inert`: A word that continues no expression.
* `Grammar.Standalone`: A shape that is an expression wherever nothing continues it.
* `Grammar.isWeak`: An expression whose outermost operator binds weaker than an assignment.

## Theorems

* `Grammar.Derives.relook`: An expression in front of another word.
* `Grammar.Derives.standalone_of_mem`: Every expression below a derived row stands by itself.
* `Grammar.Standalone.behindAssign`: An expression behind an assignment.
-/

namespace PhpAssist

namespace Shape

mutual

/-- The nodes of a shape, parents before children. -/
def nodes : Shape → List Shape
  | .word _ => []
  | .node kind children => .node kind children :: nodesOf children

/-- The nodes of a row of shapes. -/
def nodesOf : List Shape → List Shape
  | [] => []
  | shape :: more => shape.nodes ++ nodesOf more

end

@[simp] theorem nodesOf_nil : nodesOf [] = [] := rfl

@[simp] theorem nodesOf_cons (shape : Shape) (more : List Shape) :
    nodesOf (shape :: more) = shape.nodes ++ nodesOf more := rfl

@[simp] theorem nodes_word (it : Word) : (Shape.word it).nodes = [] := rfl

@[simp] theorem nodes_node (kind : Kind) (children : List Shape) :
    (Shape.node kind children).nodes = .node kind children :: nodesOf children := rfl

@[simp] theorem nodesOf_append (row more : List Shape) :
    nodesOf (row ++ more) = nodesOf row ++ nodesOf more := by
  induction row with
  | nil => rfl
  | cons shape row ih =>
    rw [List.cons_append, nodesOf_cons, ih, nodesOf_cons, List.append_assoc]

end Shape

namespace Grammar

/-- No expression goes on with the word ahead, whatever its operators are. -/
def Inert (look : Option Word) : Prop :=
  ∀ word, look = some word → continuesAccess word = false ∧
    ∀ least operand, continuesExpr least operand word = false

namespace Inert

variable {look : Option Word}

theorem access (h : Inert look) : look.any continuesAccess = false := by
  rcases look with _ | word
  · rfl
  · exact (h word rfl).1

theorem expr (h : Inert look) (least : Nat) (operand : Kind) :
    look.any (continuesExpr least operand) = false := by
  rcases look with _ | word
  · rfl
  · exact (h word rfl).2 least operand

theorem leftParen (h : Inert look) : aheadKind look ≠ .leftParen := by
  rcases look with _ | word
  · exact fun h => absurd h (by decide)
  · intro hkind
    have haccess := (h word rfl).1
    simp only [continuesAccess, show word.kind = .leftParen from hkind, reduceCtorEq] at haccess

/-- A word of a kind that continues nothing is inert, whatever it is spelled like. -/
theorem of_kind {word : Word} {kind : Kind} (hword : word.kind = kind)
    (h : kind = .semicolon ∨ kind = .rightParen) : Inert (some word) := by
  intro it hit
  rw [← Option.some.inj hit]
  rcases h with rfl | rfl
  all_goals
    refine ⟨by rw [continuesAccess, hword], fun least operand => ?_⟩
    rw [continuesExpr, hword]
    rfl

end Inert

/-- At the end of a text there is nothing to go on with. -/
theorem inert_none : Inert Option.none := nofun

/-- A shape that is an expression wherever nothing continues it. -/
def Standalone (shape : Shape) : Prop := ∀ look, Inert look → Derives (.expr 0) look [shape]

/-- What the surroundings ask of the operators of an expression can be asked less of. -/
theorem Derives.lower {symbol : Symbol} {look : Option Word} {row : List Shape}
    (h : Derives symbol look row) :
    ∀ {least less : Nat}, symbol = .operation least → less ≤ least →
      Derives (.operation less) look row := by
  induction h with
  | operation hleft =>
    intro least less _ _
    exact .operation hleft
  | assign _ hop htarget hright ih _ =>
    intro least less hsymbol hless
    exact .assign (ih hsymbol hless) hop htarget hright
  | short _ hquestion hleast hcolon hright ih _ =>
    intro least less hsymbol hless
    injection hsymbol with hsymbol
    exact .short (ih (hsymbol ▸ rfl) hless) hquestion (by omega) hcolon hright
  | ternary _ hquestion hleast hmiddle hcolon hright ih _ _ =>
    intro least less hsymbol hless
    injection hsymbol with hsymbol
    exact .ternary (ih (hsymbol ▸ rfl) hless) hquestion (by omega) hmiddle hcolon hright
  | binary _ hbinding hleast hright ih _ =>
    intro least less hsymbol hless
    injection hsymbol with hsymbol
    exact .binary (ih (hsymbol ▸ rfl) hless) hbinding (by omega) hright
  | _ =>
    intro least less hsymbol _
    exact absurd hsymbol (by simp only [reduceCtorEq, not_false_eq_true])

/-- What holds of a row in a place when it is put in front of an inert word. -/
def Relooked : Symbol → List Shape → Prop
  | .atom, row => ∀ look, Inert look → Derives .atom look row
  | .access, row => ∀ look, Inert look → Derives .access look row
  | .operand, row => ∀ look, Inert look → Derives .operand look row
  | .operation least, row => ∀ look, Inert look → Derives (.operation least) look row
  | .expr least, row => ∀ look, Inert look → ∀ less, less ≤ least → Derives (.expr less) look row
  | .member, row => ∀ look, Inert look → Derives .member look row
  | .item _, _ => True
  | .items _, _ => True

/-- Only the last part of an expression looks at what comes behind it. -/
theorem Derives.relook {symbol : Symbol} {look : Option Word} {row : List Shape}
    (h : Derives symbol look row) : Relooked symbol row := by
  induction h with
  | token hkind => exact fun look _ => .token hkind
  | paren hopening hclosing hinner _ => exact fun look _ => .paren hopening hclosing hinner
  | array hopening hclosing hrow _ => exact fun look _ => .array hopening hclosing hrow
  | new hkeyword hname _ => exact fun look hlook => .new hkeyword hname hlook.leftParen
  | newWith hkeyword hname hopening hclosing hrow _ =>
    exact fun look _ => .newWith hkeyword hname hopening hclosing hrow
  | access _ ih => exact fun look hlook => .access (ih look hlook)
  | call hbase hopening hclosing hrow _ _ =>
    exact fun look _ => .call hbase hopening hclosing hrow
  | append hbase hopening hclosing _ => exact fun look _ => .append hbase hopening hclosing
  | index hbase hopening hclosing hinner _ _ =>
    exact fun look _ => .index hbase hopening hclosing hinner
  | memberOf hbase hop _ _ ih => exact fun look hlook => .memberOf hbase hop (ih look hlook)
  | step hbase hop hstep _ => exact fun look _ => .step hbase hop hstep
  | memberWord hname => exact fun look _ => .memberWord hname
  | memberVariable hname => exact fun look _ => .memberVariable hname
  | memberBraces hopening hclosing hinner _ =>
    exact fun look _ => .memberBraces hopening hclosing hinner
  | operand _ _ ih => exact fun look hlook => .operand (ih look hlook) hlook.access
  | leading hop _ ih => exact fun look hlook => .leading hop (ih look hlook _ (Nat.le_refl _))
  | operation _ ih => exact fun look hlook => .operation (ih look hlook)
  | assign hleft hop htarget _ _ ih =>
    exact fun look hlook => .assign hleft hop htarget (ih look hlook _ (Nat.le_refl _))
  | short hleft hquestion hleast hcolon _ _ ih =>
    exact fun look hlook =>
      .short hleft hquestion hleast hcolon (ih look hlook _ (Nat.le_refl _))
  | ternary hleft hquestion hleast hmiddle hcolon _ _ _ ih =>
    exact fun look hlook =>
      .ternary hleft hquestion hleast hmiddle hcolon (ih look hlook _ (Nat.le_refl _))
  | binary hleft hbinding hleast _ _ ih =>
    exact fun look hlook => .binary hleft hbinding hleast (ih look hlook _ (Nat.le_refl _))
  | expr _ _ ih =>
    exact fun look hlook less hless => .expr ((ih look hlook).lower rfl hless) (hlook.expr _ _)
  | argument | element | keyed | param | paramDefault | none | last | more => trivial

/-- Whether a place is one of expressions. -/
def Symbol.isExpr : Symbol → Bool
  | .atom | .access | .operand | .operation _ | .expr _ => true
  | .member | .item _ | .items _ => false

/-- An expression stands by itself, from whatever place it comes. -/
theorem Derives.standalone {symbol : Symbol} {look : Option Word} {shape : Shape}
    (h : Derives symbol look [shape]) (hsymbol : symbol.isExpr = true) : Standalone shape := by
  intro inert hinert
  -- An inert word ends every loop, so what is an operation in front of it is an expression.
  have hoperation {least : Nat} (hshape : Derives (.operation least) inert [shape]) :
      Derives (.expr 0) inert [shape] :=
    .expr (hshape.lower rfl (Nat.zero_le _)) (hinert.expr _ _)
  have haccess (hshape : Derives .access inert [shape]) : Derives (.expr 0) inert [shape] :=
    @hoperation 0 (.operation (.operand hshape hinert.access))
  have hrelook := h.relook
  cases symbol with
  | atom => exact haccess (.access (hrelook inert hinert))
  | access => exact haccess (hrelook inert hinert)
  | operand => exact @hoperation 0 (.operation (hrelook inert hinert))
  | operation least => exact hoperation (hrelook inert hinert)
  | expr least => exact hrelook inert hinert 0 (Nat.zero_le _)
  | member | item | items => exact absurd hsymbol Bool.false_ne_true

/-- Every expression among the nodes of a row stands by itself. -/
def AllStandalone (row : List Shape) : Prop :=
  ∀ shape ∈ Shape.nodesOf row, shape.kind.isExpr = true → Standalone shape

namespace AllStandalone

variable {row more : List Shape} {shape : Shape} {kind : Kind}

theorem nil : AllStandalone [] := fun _ h => absurd h List.not_mem_nil

theorem append (h : AllStandalone row) (hmore : AllStandalone more) :
    AllStandalone (row ++ more) := by
  intro it hit
  rw [Shape.nodesOf_append, List.mem_append] at hit
  rcases hit with hit | hit
  · exact h it hit
  · exact hmore it hit

theorem cons (h : AllStandalone [shape]) (hmore : AllStandalone more) :
    AllStandalone (shape :: more) := append h hmore

theorem word {word : Word} (hmore : AllStandalone more) : AllStandalone (.word word :: more) :=
  hmore

/-- The words around a row are no nodes. -/
theorem inBrackets {opening closing : Word} (h : AllStandalone row) :
    AllStandalone (.word opening :: (row ++ [Shape.word closing])) :=
  word (h.append (word nil))

/-- A node is no expression, or stands by itself. -/
theorem node (hnode : kind.isExpr = true → Standalone (.node kind row))
    (h : AllStandalone row) : AllStandalone [.node kind row] := by
  intro it hit
  rw [Shape.nodesOf_cons, Shape.nodes_node, Shape.nodesOf_nil, List.append_nil,
    List.mem_cons] at hit
  rcases hit with rfl | hit
  · exact hnode
  · exact h it hit

theorem part (hkind : kind.isExpr = false) (h : AllStandalone row) :
    AllStandalone [.node kind row] :=
  node (fun hexpr => absurd (hexpr.symm.trans hkind) (by decide)) h

end AllStandalone

theorem TypeShape.allStandalone {look : Option Word} {type : Shape} (h : TypeShape look type) :
    AllStandalone [type] := by
  have hmembers {row : List Shape} (hrow : UnionMembers look row) : AllStandalone row := by
    induction hrow with
    | done => exact .nil
    | more _ _ _ ih => exact .word (.word ih)
  cases h with
  | plain _ hrow => exact .part rfl (.word (hmembers hrow))
  | optional _ _ hrow => exact .part rfl (.word (.word (hmembers hrow)))

theorem ParamName.allStandalone {row : List Shape} (h : ParamName row) : AllStandalone row := by
  have hvariable {row : List Shape} (hrow : ParamVariable row) : AllStandalone row := by
    cases hrow with
    | plain _ => exact .word .nil
    | marked _ _ => exact .word (.word .nil)
  cases h with
  | untyped hrow => exact hvariable hrow
  | typed hrow htype => exact .cons htype.allStandalone (hvariable hrow)

/-- Every expression below a derived row stands by itself. -/
theorem Derives.standalone_of_mem {symbol : Symbol} {look : Option Word} {row : List Shape}
    (h : Derives symbol look row) : AllStandalone row := by
  -- A node of an expression stands alone because it is derived, its children by induction.
  have hself {symbol : Symbol} {look : Option Word} {kind : Kind} {children : List Shape}
      (h : Derives symbol look [.node kind children]) (hsymbol : symbol.isExpr = true)
      (hchildren : AllStandalone children) : AllStandalone [.node kind children] :=
    .node (fun _ => h.standalone hsymbol) hchildren
  have hclass {name : Word} {kind : Kind} (hname : classKind? name.kind = some kind) :
      AllStandalone [.node kind [.word name]] := by
    refine .node (fun _ => ?_) (.word .nil)
    refine (@Derives.token Option.none name kind ?_).standalone rfl
    rcases kind_of_classKind? hname with ⟨hkind, rfl⟩ | ⟨hkind, rfl⟩ <;> rw [hkind] <;> rfl
  induction h with
  | token hkind => exact hself (@Derives.token Option.none _ _ hkind) rfl (.word .nil)
  | paren hopening hclosing hinner ih =>
    exact hself (@Derives.paren Option.none _ _ _ hopening hclosing hinner) rfl (.inBrackets ih)
  | array hopening hclosing hrow ih =>
    exact hself (@Derives.array Option.none _ _ _ hopening hclosing hrow) rfl (.inBrackets ih)
  | new hkeyword hname hlook =>
    exact hself (.new hkeyword hname hlook) rfl (.word (hclass hname))
  | newWith hkeyword hname hopening hclosing hrow ih =>
    exact hself (@Derives.newWith Option.none _ _ _ _ _ _ hkeyword hname hopening hclosing hrow) rfl
      (.word (.cons (hclass hname) (.part rfl (.inBrackets ih))))
  | access _ ih => exact ih
  | call hbase hopening hclosing hrow ih ihrow =>
    exact hself (@Derives.call Option.none _ _ _ _ hbase hopening hclosing hrow) rfl
      (.cons ih (.part rfl (.inBrackets ihrow)))
  | append hbase hopening hclosing ih =>
    exact hself (@Derives.append Option.none _ _ _ hbase hopening hclosing) rfl
      (.cons ih (.word (.word .nil)))
  | index hbase hopening hclosing hinner ih ihinner =>
    exact hself (@Derives.index Option.none _ _ _ _ hbase hopening hclosing hinner) rfl
      (.cons ih (.inBrackets ihinner))
  | memberOf hbase hop hrow ih ihrow =>
    exact hself (.memberOf hbase hop hrow) rfl (.cons ih (.word ihrow))
  | step hbase hop hstep ih =>
    exact hself (@Derives.step Option.none _ _ hbase hop hstep) rfl (.cons ih (.word .nil))
  | memberWord _ => exact .word .nil
  | memberVariable hname =>
    exact hself (@Derives.token Option.none _ _ (by rw [hname]; rfl)) rfl (.word .nil)
  | memberBraces _ _ _ ih => exact .inBrackets ih
  | operand _ _ ih => exact ih
  | leading hop hinner ih => exact hself (.leading hop hinner) rfl (.word ih)
  | operation _ ih => exact ih
  | assign hleft hop htarget hright ih ihright =>
    exact hself (.assign hleft hop htarget hright) rfl (.cons ih (.word ihright))
  | short hleft hquestion hleast hcolon hright ih ihright =>
    exact hself (.short hleft hquestion hleast hcolon hright) rfl
      (.cons ih (.word (.word ihright)))
  | ternary hleft hquestion hleast hmiddle hcolon hright ih ihmiddle ihright =>
    exact hself (.ternary hleft hquestion hleast hmiddle hcolon hright) rfl
      (.cons ih (.word (.cons ihmiddle (.word ihright))))
  | binary hleft hbinding hleast hright ih ihright =>
    exact hself (.binary hleft hbinding hleast hright) rfl (.cons ih (.word ihright))
  | expr _ _ ih => exact ih
  | argument _ ih => exact ih
  | element _ _ ih => exact .part rfl ih
  | keyed _ _ _ ihkey ihvalue => exact .part rfl (.cons ihkey (.word ihvalue))
  | param hrow _ => exact .part rfl hrow.allStandalone
  | paramDefault hrow _ _ ih => exact .part rfl (hrow.allStandalone.append (.word ih))
  | none => exact .nil
  | last _ _ ih => exact ih
  | more _ _ _ ih ihrow => exact .cons ih (.word ihrow)

/-! ## Expressions in statements -/

theorem Exprs.allStandalone {look : Option Word} {row : List Shape} (h : Exprs look row) :
    AllStandalone row := by
  induction h with
  | one hvalue _ => exact hvalue.standalone_of_mem
  | more hvalue _ _ ih => exact .cons hvalue.standalone_of_mem (.word ih)

theorem Guard.allStandalone {row : List Shape} (h : Guard row) : AllStandalone row := by
  cases h with
  | mk _ _ hinner => exact .inBrackets hinner.standalone_of_mem

theorem LoopHead.allStandalone {kind : Kind} {row : List Shape} (h : LoopHead kind row) :
    AllStandalone row := by
  -- The parts of a head are expressions, or there is nothing but the terminator.
  have hpart {terminator : Kind} {row : List Shape} (hrow : ForPart terminator row) :
      AllStandalone row := by
    cases hrow with
    | empty _ => exact .word .nil
    | exprs hrow _ => exact hrow.allStandalone.append (.word .nil)
  have htarget {look : Option Word} {row : List Shape} (hrow : EachTarget look row) :
      AllStandalone row := by
    cases hrow with
    | value hvalue _ => exact hvalue.standalone_of_mem
    | keyed hkey _ hvalue => exact .cons hkey.standalone_of_mem (.word hvalue.standalone_of_mem)
  cases h with
  | whileHead hrow => exact hrow.allStandalone
  | forHead _ hfirst hsecond hthird =>
    exact .word (((hpart hfirst).append (hpart hsecond)).append (hpart hthird))
  | eachHead _ hsubject _ hrow _ =>
    exact .word (.cons hsubject.standalone_of_mem (.word ((htarget hrow).append (.word .nil))))

theorem FunctionHead.allStandalone {look : Option Word} {row : List Shape}
    (h : FunctionHead look row) : AllStandalone row := by
  cases h with
  | @mk _ _ name _ result hname _ hrow _ hresult =>
    have hnamed : AllStandalone name := by
      cases hname with
      | plain _ => exact AllStandalone.word .nil
      | marked _ _ => exact AllStandalone.word (.word .nil)
    have hended : AllStandalone result := by
      cases hresult with
      | none _ => exact AllStandalone.nil
      | some _ htype => exact AllStandalone.word htype.allStandalone
    exact hnamed.append (.cons (.part rfl (.inBrackets hrow.standalone_of_mem)) hended)

/-- Every expression below a derived row of statements stands by itself. -/
theorem DerivesStmt.standalone_of_mem {part : Part} {look : Option Word} {row : List Shape}
    (h : DerivesStmt part look row) : AllStandalone row := by
  have hjump {kind node : Kind} (hkind : jumpKind? kind = some node) : node.isExpr = false := by
    rcases keyword_of_jumpKind? hkind with ⟨_, rfl⟩ | ⟨_, rfl⟩ | ⟨_, rfl⟩ <;> rfl
  have hloop {kind node : Kind} (hkind : loopKind? kind = some node) : node.isExpr = false := by
    rcases keyword_of_loopKind? hkind with ⟨_, rfl⟩ | ⟨_, rfl⟩ | ⟨_, rfl⟩ <;> rfl
  -- Statements are no expressions, so nothing is asked of their own nodes.
  induction h with
  | block _ _ _ ih => exact .part rfl (.inBrackets ih)
  | expr _ hvalue => exact .part rfl (.cons hvalue.standalone_of_mem (.word .nil))
  | echo _ hrow _ => exact .part rfl (.inBrackets hrow.allStandalone)
  | jump hkeyword _ => exact .part (hjump hkeyword) (.word (.word .nil))
  | jumpWith hkeyword hvalue _ =>
    exact .part (hjump hkeyword) (.inBrackets hvalue.standalone_of_mem)
  | choice _ hguard _ _ ihbody ihrow =>
    exact .part rfl (.word (hguard.allStandalone.append (.cons ihbody ihrow)))
  | loop hkeyword hhead _ ih =>
    exact .part (hloop hkeyword) (.word (hhead.allStandalone.append ih))
  | doWhile _ _ _ hguard _ ih =>
    exact .part rfl (.word (.cons ih (.word (hguard.allStandalone.append (.word .nil)))))
  | function _ hhead _ _ _ ih =>
    exact .part rfl (.word (hhead.allStandalone.append (.part rfl (.inBrackets ih))))
  | empty _ => exact .part rfl (.word .nil)
  | nil => exact .nil
  | cons _ _ ihfirst ihrow => exact .cons ihfirst ihrow
  | noBranch _ _ => exact .nil
  | elseif _ hguard _ _ ihbody ihrow =>
    exact .cons (.part rfl (.word (hguard.allStandalone.append ihbody))) ihrow
  | otherwise _ _ ih => exact .part rfl (.word ih)

/-! ## Expressions behind an assignment -/

/-- Whether the outermost operator of an expression binds weaker than an assignment. -/
def isWeak : Shape → Bool
  | .node .binaryExpr [_, .word op, _] =>
    (binding? op.kind op.text).any fun binding => binding.left < assignmentPower
  | _ => false

theorem isWeak_of_kind {shape : Shape} (h : shape.kind ≠ .binaryExpr) : isWeak shape = false := by
  unfold isWeak
  split
  · exact absurd rfl h
  · rfl

/-- A word with binding powers is an operator between two operands and nothing else. -/
theorem kind_of_binding? {kind : Kind} {text : Text} {binding : Binding}
    (h : binding? kind text = some binding) : kind = .dot ∨ kind = .operator := by
  unfold binding? at h
  split at h
  · exact .inl rfl
  · exact .inr rfl
  · exact absurd h (by simp only [reduceCtorEq, not_false_eq_true])

theorem continuesExpr_question {word : Word} (h : word.kind = .question) (least : Nat)
    (operand : Kind) : continuesExpr least operand word = decide (least ≤ ternaryLeft) := by
  rw [continuesExpr, h]
  rfl

theorem continuesExpr_binding {word : Word} {binding : Binding}
    (h : binding? word.kind word.text = some binding) (least : Nat) (operand : Kind) :
    continuesExpr least operand word = decide (least ≤ binding.left) := by
  rw [continuesExpr, h, Option.any_some]
  rcases kind_of_binding? h with hkind | hkind <;> rw [hkind] <;> rfl

/-- The powers of an operator are those of an entry of the table, or those of a concatenation. -/
theorem binding?_cases {kind : Kind} {text : Text} {binding : Binding}
    (h : binding? kind text = some binding) :
    binding = ⟨25, 26, .concatExpr⟩ ∨
      ∃ entry ∈ bindings, entry.1.toList = Text.lower text ∧
        binding = ⟨entry.2.1, entry.2.2, .binaryExpr⟩ := by
  unfold binding? at h
  split at h
  · exact .inl (Option.some.inj h).symm
  · rcases Option.map_eq_some_iff.1 h with ⟨entry, hentry, hbinding⟩
    have hspelling := List.find?_some hentry
    exact .inr ⟨entry, List.mem_of_find?_eq_some hentry, beq_iff_eq.1 hspelling, hbinding.symm⟩
  · exact absurd h (by simp only [reduceCtorEq, not_false_eq_true])

/-- What binds weaker than an assignment to its left does so to its right. -/
theorem right_of_weak {kind : Kind} {text : Text} {binding : Binding}
    (h : binding? kind text = some binding) (hweak : binding.left < assignmentPower) :
    binding.right < assignmentPower := by
  have htable : ∀ entry ∈ bindings, entry.2.1 < assignmentPower → entry.2.2 < assignmentPower := by
    decide
  rcases binding?_cases h with rfl | ⟨entry, hentry, _, rfl⟩
  · exact absurd hweak (by decide)
  · exact htable entry hentry hweak

/-- An operand is no operation. -/
theorem Derives.kind_ne_binaryExpr {symbol : Symbol} {look : Option Word} {shape : Shape}
    (h : Derives symbol look [shape])
    (hsymbol : symbol = .atom ∨ symbol = .access ∨ symbol = .operand) :
    shape.kind ≠ .binaryExpr := by
  -- By induction, and for any row, as the derivation of a shape is one of a row of one.
  have haccess {row : List Shape} {symbol : Symbol} {look : Option Word}
      (h : Derives symbol look row) : ∀ shape, row = [shape] →
        symbol = .atom ∨ symbol = .access ∨ symbol = .operand → shape.kind ≠ .binaryExpr := by
    induction h with
    | token hkind =>
      rintro shape hrow _ hbinary
      rcases hrow
      rw [Shape.kind] at hbinary
      rw [hbinary] at hkind
      rcases kind_of_operandKind? hkind with ⟨_, hnot⟩ | hnot | hnot | ⟨_, hnot⟩ <;>
        exact absurd hnot (by decide)
    | memberOf _ hop _ _ _ =>
      rintro shape hrow _ hbinary
      rcases hrow
      rw [Shape.kind] at hbinary
      rw [hbinary] at hop
      rcases kind_of_accessKind? hop with ⟨_, hnot⟩ | ⟨_, hnot⟩ <;> exact absurd hnot (by decide)
    | paren | array | new | newWith | call | append | index | step | leading =>
      intro shape hrow _
      rcases hrow
      simp only [Shape.kind, ne_eq, reduceCtorEq, not_false_eq_true]
    | access _ ih => exact fun shape hrow _ => ih shape hrow (.inl rfl)
    | operand _ _ ih => exact fun shape hrow _ => ih shape hrow (.inr (.inl rfl))
    | _ =>
      intro _ _ hsymbol
      simp only [reduceCtorEq, or_self] at hsymbol
  exact haccess h shape rfl hsymbol

/-- What comes behind an operation with a weak operator binds no tighter, since it would have
    belonged to its right operand. -/
theorem Derives.weak_stops {least : Nat} {op : Word} {left : Shape}
    (h : Derives (.operation least) (some op) [left]) (hweak : isWeak left = true) :
    op.kind ≠ .question ∧
      ∀ binding, binding? op.kind op.text = some binding → binding.left < assignmentPower := by
  -- Only a binary operation can be weak, and then its operator says what may follow.
  cases h with
  | operation hleft =>
    rw [isWeak_of_kind (hleft.kind_ne_binaryExpr (.inr (.inr rfl)))] at hweak
    exact absurd hweak Bool.false_ne_true
  | assign | short | ternary =>
    rw [isWeak_of_kind (by simp only [Shape.kind, ne_eq, reduceCtorEq, not_false_eq_true])] at hweak
    exact absurd hweak Bool.false_ne_true
  | @binary _ _ inner _ right binding _ hbinding _ hright =>
    have hless : binding.left < assignmentPower := by
      unfold isWeak at hweak
      split at hweak
      · rename_i heq
        injection heq with _ heq
        injection heq with _ heq
        injection heq with heq _
        injection heq with heq
        rw [← heq, hbinding, Option.any_some, decide_eq_true_eq] at hweak
        exact hweak
      · exact absurd hweak Bool.false_ne_true
    have hlesser := right_of_weak hbinding hless
    cases hright with
    | expr _ hlook =>
      rw [Option.any_some] at hlook
      refine ⟨fun hquestion => ?_, fun outer houter => ?_⟩
      · rw [continuesExpr_question hquestion, decide_eq_false_iff_not] at hlook
        rw [assignmentPower] at hlesser
        exact hlook (by rw [ternaryLeft]; omega)
      · rw [continuesExpr_binding houter, decide_eq_false_iff_not] at hlook
        omega

/-- An operation whose outermost operator is not weak asks its operators for no less than an
    assignment does. -/
theorem Derives.raise {symbol : Symbol} {look : Option Word} {row : List Shape}
    (h : Derives symbol look row) : ∀ {least : Nat} {shape : Shape}, symbol = .operation least →
      row = [shape] → isWeak shape = false →
        Derives (.operation assignmentPower) look [shape] := by
  -- What stands in front of an operator that binds tightly is not weak.
  have hstrong {least : Nat} {op : Word} {left : Shape}
      (h : Derives (.operation least) (some op) [left])
      (hop : op.kind = .question ∨ ∃ binding, binding? op.kind op.text = some binding ∧
        assignmentPower ≤ binding.left) : isWeak left = false := by
    by_cases hweak : isWeak left = true
    · have hstops := h.weak_stops hweak
      rcases hop with hop | ⟨binding, hbinding, hleast⟩
      · exact absurd hop hstops.1
      · exact absurd (hstops.2 binding hbinding) (by omega)
    · exact Bool.not_eq_true _ ▸ hweak
  induction h with
  | operation hleft =>
    rintro least shape _ hrow _
    rcases hrow
    exact .operation hleft
  | @assign _ _ _ left _ hleft hop htarget hright ih _ =>
    intro least shape hsymbol hrow _
    rcases hrow
    have hweak : isWeak left = false := by
      refine isWeak_of_kind fun hkind => ?_
      rw [hkind] at htarget
      exact absurd htarget (by decide)
    exact .assign (ih hsymbol rfl hweak) hop htarget hright
  | short hleft hquestion hleast hcolon hright ih _ =>
    intro least shape hsymbol hrow _
    rcases hrow
    exact .short (ih hsymbol rfl (hstrong hleft (.inl hquestion))) hquestion (by decide) hcolon hright
  | ternary hleft hquestion hleast hmiddle hcolon hright ih _ _ =>
    intro least shape hsymbol hrow _
    rcases hrow
    exact .ternary (ih hsymbol rfl (hstrong hleft (.inl hquestion))) hquestion (by decide) hmiddle
      hcolon hright
  | @binary _ _ _ _ _ binding hleft hbinding _ hright ih _ =>
    intro least shape hsymbol hrow hweak
    rcases hrow
    have hleast : assignmentPower ≤ binding.left := by
      rcases binding?_cases hbinding with rfl | ⟨entry, hentry, _, rfl⟩
      · decide
      · rw [isWeak, hbinding, Option.any_some, decide_eq_false_iff_not] at hweak
        omega
    exact .binary (ih hsymbol rfl (hstrong hleft (.inr ⟨binding, hbinding, hleast⟩))) hbinding hleast
      hright
  | _ =>
    intro least shape hsymbol
    exact absurd hsymbol (by simp only [reduceCtorEq, not_false_eq_true])

/-- An expression that stands by itself can stand behind an assignment, unless its outermost
    operator binds weaker. -/
theorem Standalone.behindAssign {shape : Shape} (h : Standalone shape) (hweak : isWeak shape = false)
    {look : Option Word} (hlook : Inert look) : Derives (.expr assignmentPower) look [shape] := by
  cases h look hlook with
  | expr hwhole _ => exact .expr (hwhole.raise rfl rfl hweak) (hlook.expr _ _)

end Grammar

end PhpAssist

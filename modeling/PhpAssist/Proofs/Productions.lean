import PhpAssist.Proofs.Parts

/-!
# The rule behind every node

A tree without diagnostics is derived from its root, and each node in it comes from one rule of the
grammar. Taken apart that way, a statement about all nodes of a clean tree is a statement about the
rules, one at a time, and what a rule is applied to no longer matters.

An expression is known by more than its rule: it is an expression wherever nothing continues it.
The other nodes stand for themselves.

## Main definitions

* `Shape.Each`: A property of every node of a row.
* `Grammar.Production`: A node, by the rule that makes it.

## Theorems

* `Grammar.Derives.productions`, `Grammar.DerivesStmt.productions`: Every node of a derived row comes
  from a rule.
* `Parse.production_of_mem`: Every node below the root of a file without diagnostics does.
-/

namespace PhpAssist

namespace Shape

/-- Every node of a row has a property. -/
def Each (p : Shape → Prop) (row : List Shape) : Prop := ∀ shape ∈ nodesOf row, p shape

namespace Each

variable {p : Shape → Prop} {row more : List Shape} {shape : Shape} {kind : Kind}

theorem nil : Each p [] := fun _ h => absurd h List.not_mem_nil

theorem append (h : Each p row) (hmore : Each p more) : Each p (row ++ more) := by
  intro it hit
  rw [nodesOf_append, List.mem_append] at hit
  rcases hit with hit | hit
  · exact h it hit
  · exact hmore it hit

theorem cons (h : Each p [shape]) (hmore : Each p more) : Each p (shape :: more) :=
  append h hmore

theorem word {word : Word} (hmore : Each p more) : Each p (.word word :: more) := hmore

/-- The words around a row are no nodes. -/
theorem inBrackets {opening closing : Word} (h : Each p row) :
    Each p (.word opening :: (row ++ [Shape.word closing])) :=
  word (h.append (word nil))

theorem node (hnode : p (.node kind row)) (h : Each p row) : Each p [.node kind row] := by
  intro it hit
  rw [nodesOf_cons, nodes_node, nodesOf_nil, List.append_nil, List.mem_cons] at hit
  rcases hit with rfl | hit
  · exact hnode
  · exact h it hit

end Each

end Shape

namespace Grammar

open Shape (Each)

/-- The nodes that the grammar makes, each by the rule that makes it. -/
inductive Production : Shape → Prop
  | expr {shape : Shape} (h : Standalone shape) : Production shape
  | arguments {opening closing : Word} {row : List Shape} (hopening : opening.kind = .leftParen)
      (hclosing : closing.kind = .rightParen)
      (hrow : Derives (.items .argument) (some closing) row) :
      Production (.node .argList (.word opening :: (row ++ [.word closing])))
  | parameters {opening closing : Word} {row : List Shape} (hopening : opening.kind = .leftParen)
      (hclosing : closing.kind = .rightParen)
      (hrow : Derives (.items .parameter) (some closing) row) :
      Production (.node .paramList (.word opening :: (row ++ [.word closing])))
  | item {sort : ListSort} {look : Option Word} {shape : Shape}
      (h : Derives (.item sort) look [shape]) : Production shape
  | type {look : Option Word} {shape : Shape} (h : TypeShape look shape) : Production shape
  | stmt {look : Option Word} {shape : Shape} (h : DerivesStmt .stmt look [shape]) :
      Production shape
  | branch {look : Option Word} {shape : Shape} {row : List Shape}
      (h : DerivesStmt .branches look (shape :: row)) : Production shape

/-- The name of a class behind `new` is an operand of one word. -/
theorem standalone_className {name : Word} {kind : Kind} (h : classKind? name.kind = some kind) :
    Standalone (.node kind [.word name]) := by
  refine (@Derives.token Option.none name kind ?_).standalone rfl
  rcases kind_of_classKind? h with ⟨hname, rfl⟩ | ⟨hname, rfl⟩
  all_goals
    rw [hname]
    rfl

theorem mem_of_jumpKind? {kind jump : Kind} (h : jumpKind? kind = some jump) :
    jump ∈ [Kind.returnStmt, .breakStmt, .continueStmt] := by
  rcases keyword_of_jumpKind? h with ⟨_, rfl⟩ | ⟨_, rfl⟩ | ⟨_, rfl⟩ <;> decide

theorem mem_of_loopKind? {kind loop : Kind} (h : loopKind? kind = some loop) :
    loop ∈ [Kind.whileStmt, .forStmt, .foreachStmt] := by
  rcases keyword_of_loopKind? h with ⟨_, rfl⟩ | ⟨_, rfl⟩ | ⟨_, rfl⟩ <;> decide

/-! ## Parts without expressions -/

theorem TypeShape.productions {look : Option Word} {type : Shape} (h : TypeShape look type) :
    Each Production [type] := by
  have hmembers {row : List Shape} (hrow : UnionMembers look row) : Each Production row := by
    induction hrow with
    | done => exact .nil
    | more _ _ _ ih => exact .word (.word ih)
  have hself := Production.type h
  cases h with
  | plain _ hrow => exact .node hself (.word (hmembers hrow))
  | optional _ _ hrow => exact .node hself (.word (.word (hmembers hrow)))

theorem ParamName.productions {row : List Shape} (h : ParamName row) : Each Production row := by
  have hvariable {row : List Shape} (hrow : ParamVariable row) : Each Production row := by
    cases hrow with
    | plain _ => exact .word .nil
    | marked _ _ => exact .word (.word .nil)
  cases h with
  | untyped hrow => exact hvariable hrow
  | typed hrow htype => exact .cons htype.productions (hvariable hrow)

/-! ## Expressions -/

/-- Every node of a derived row comes from a rule. -/
theorem Derives.productions {symbol : Symbol} {look : Option Word} {row : List Shape}
    (h : Derives symbol look row) : Each Production row := by
  have hself {symbol : Symbol} {look : Option Word} {kind : Kind} {children : List Shape}
      (h : Derives symbol look [.node kind children]) (hsymbol : symbol.isExpr = true)
      (hchildren : Each Production children) : Each Production [.node kind children] :=
    .node (.expr (h.standalone hsymbol)) hchildren
  have hclass {name : Word} {kind : Kind} (hname : classKind? name.kind = some kind) :
      Each Production [.node kind [.word name]] :=
    .node (.expr (standalone_className hname)) (.word .nil)
  -- A node is a production whatever follows it, so each is derived anew with nothing behind.
  induction h with
  | token hkind => exact hself (@Derives.token Option.none _ _ hkind) rfl (.word .nil)
  | paren hopening hclosing hinner ih =>
    exact hself (@Derives.paren Option.none _ _ _ hopening hclosing hinner) rfl (.inBrackets ih)
  | array hopening hclosing hrow ih =>
    exact hself (@Derives.array Option.none _ _ _ hopening hclosing hrow) rfl (.inBrackets ih)
  | new hkeyword hname hlook =>
    exact hself (.new hkeyword hname hlook) rfl (.word (hclass hname))
  | newWith hkeyword hname hopening hclosing hrow ih =>
    exact hself (@Derives.newWith Option.none _ _ _ _ _ _ hkeyword hname hopening hclosing hrow) rfl
      (.word (.cons (hclass hname) (.node (.arguments hopening hclosing hrow) (.inBrackets ih))))
  | access _ ih | operand _ _ ih | operation _ ih | expr _ _ ih | argument _ ih => exact ih
  | call hbase hopening hclosing hrow ih ihrow =>
    exact hself (@Derives.call Option.none _ _ _ _ hbase hopening hclosing hrow) rfl
      (.cons ih (.node (.arguments hopening hclosing hrow) (.inBrackets ihrow)))
  | append hbase hopening hclosing ih =>
    exact hself (@Derives.append Option.none _ _ _ hbase hopening hclosing) rfl
      (.cons ih (.word (.word .nil)))
  | index hbase hopening hclosing hinner ih ihinner =>
    exact hself (@Derives.index Option.none _ _ _ _ hbase hopening hclosing hinner) rfl
      (.cons ih (.inBrackets ihinner))
  | memberOf hbase hop hrow ih ihrow =>
    exact hself (.memberOf hbase hop hrow) rfl (.cons ih (.word ihrow))
  | step hbase hop hstep ih =>
    exact hself (@Derives.step Option.none _ _ hbase hop hstep) rfl (.cons ih (.word .nil))
  | memberWord _ => exact .word .nil
  | memberVariable hname =>
    exact hself (@Derives.token Option.none _ _ (by rw [hname]; rfl)) rfl (.word .nil)
  | memberBraces _ _ _ ih => exact .inBrackets ih
  | leading hop hinner ih => exact hself (.leading hop hinner) rfl (.word ih)
  | assign hleft hop htarget hright ih ihright =>
    exact hself (.assign hleft hop htarget hright) rfl (.cons ih (.word ihright))
  | short hleft hquestion hleast hcolon hright ih ihright =>
    exact hself (.short hleft hquestion hleast hcolon hright) rfl
      (.cons ih (.word (.word ihright)))
  | ternary hleft hquestion hleast hmiddle hcolon hright ih ihmiddle ihright =>
    exact hself (.ternary hleft hquestion hleast hmiddle hcolon hright) rfl
      (.cons ih (.word (.cons ihmiddle (.word ihright))))
  | binary hleft hbinding hleast hright ih ihright =>
    exact hself (.binary hleft hbinding hleast hright) rfl (.cons ih (.word ihright))
  -- Items are productions of their own.
  | element hvalue hlook ih => exact .node (.item (.element hvalue hlook)) ih
  | keyed hkey harrow hvalue ihkey ihvalue =>
    exact .node (.item (.keyed hkey harrow hvalue)) (.cons ihkey (.word ihvalue))
  | param hrow hlook => exact .node (.item (.param hrow hlook)) hrow.productions
  | paramDefault hrow hequals hvalue ih =>
    exact .node (.item (.paramDefault hrow hequals hvalue)) (hrow.productions.append (.word ih))
  | none => exact .nil
  | last _ _ ih => exact ih
  | more _ _ _ ih ihrow => exact .cons ih (.word ihrow)

/-! ## Statements -/

theorem Exprs.productions {look : Option Word} {row : List Shape} (h : Exprs look row) :
    Each Production row := by
  induction h with
  | one hvalue _ => exact hvalue.productions
  | more hvalue _ _ ih => exact .cons hvalue.productions (.word ih)

theorem Guard.productions {row : List Shape} (h : Guard row) : Each Production row := by
  cases h with
  | mk _ _ hinner => exact .inBrackets hinner.productions

theorem LoopHead.productions {kind : Kind} {row : List Shape} (h : LoopHead kind row) :
    Each Production row := by
  have hpart {terminator : Kind} {row : List Shape} (hrow : ForPart terminator row) :
      Each Production row := by
    cases hrow with
    | empty _ => exact .word .nil
    | exprs hrow _ => exact hrow.productions.append (.word .nil)
  have htarget {look : Option Word} {row : List Shape} (hrow : EachTarget look row) :
      Each Production row := by
    cases hrow with
    | value hvalue _ => exact hvalue.productions
    | keyed hkey _ hvalue => exact .cons hkey.productions (.word hvalue.productions)
  -- The three heads are rows of expressions and words.
  cases h with
  | whileHead hrow => exact hrow.productions
  | forHead _ hfirst hsecond hthird =>
    exact .word (((hpart hfirst).append (hpart hsecond)).append (hpart hthird))
  | eachHead _ hsubject _ hrow _ =>
    exact .word (.cons hsubject.productions (.word ((htarget hrow).append (.word .nil))))

theorem FunctionHead.productions {look : Option Word} {row : List Shape}
    (h : FunctionHead look row) : Each Production row := by
  cases h with
  | @mk _ _ name _ result hname hopening hrow hclosing hresult =>
    have hnamed : Each Production name := by
      cases hname with
      | plain _ => exact Each.word .nil
      | marked _ _ => exact Each.word (.word .nil)
    have hended : Each Production result := by
      cases hresult with
      | none _ => exact Each.nil
      | some _ htype => exact Each.word htype.productions
    exact hnamed.append
      (.cons (.node (.parameters hopening hclosing hrow) (.inBrackets hrow.productions)) hended)

/-- Every node of a derived row of statements comes from a rule. -/
theorem DerivesStmt.productions {part : Part} {look : Option Word} {row : List Shape}
    (h : DerivesStmt part look row) : Each Production row := by
  induction h with
  | block hopening hclosing hrow ih =>
    exact .node (.stmt (@DerivesStmt.block Option.none _ _ _ hopening hclosing hrow))
      (.inBrackets ih)
  | expr hstop hvalue =>
    exact .node (.stmt (@DerivesStmt.expr Option.none _ _ hstop hvalue))
      (.cons hvalue.productions (.word .nil))
  | echo hkeyword hrow hstop =>
    exact .node (.stmt (@DerivesStmt.echo Option.none _ _ _ hkeyword hrow hstop))
      (.inBrackets hrow.productions)
  | jump hkeyword hstop =>
    exact .node (.stmt (@DerivesStmt.jump Option.none _ _ _ hkeyword hstop)) (.word (.word .nil))
  | jumpWith hkeyword hvalue hstop =>
    exact .node (.stmt (@DerivesStmt.jumpWith Option.none _ _ _ _ hkeyword hvalue hstop))
      (.inBrackets hvalue.productions)
  | choice hkeyword hguard hbody hrow ihbody ihrow =>
    exact .node (.stmt (.choice hkeyword hguard hbody hrow))
      (.word (hguard.productions.append (.cons ihbody ihrow)))
  | loop hkeyword hhead hbody ih =>
    exact .node (.stmt (.loop hkeyword hhead hbody)) (.word (hhead.productions.append ih))
  | doWhile hkeyword hbody hwhile hguard hstop ih =>
    exact .node
      (.stmt (@DerivesStmt.doWhile Option.none _ _ _ _ _ hkeyword hbody hwhile hguard hstop))
      (.word (.cons ih (.word (hguard.productions.append (.word .nil)))))
  -- The body is a block, and so a production by itself.
  | function hkeyword hhead hopening hclosing hrow ih =>
    have hblock : DerivesStmt .stmt Option.none _ := .block hopening hclosing hrow
    exact .node
      (.stmt (@DerivesStmt.function Option.none _ _ _ _ _ hkeyword hhead hopening hclosing hrow))
      (.word (hhead.productions.append (.node (.stmt hblock) (.inBrackets ih))))
  | empty hstop => exact .node (.stmt (@DerivesStmt.empty Option.none _ hstop)) (.word .nil)
  | nil => exact .nil
  | cons _ _ ihfirst ihrow => exact .cons ihfirst ihrow
  | noBranch _ _ => exact .nil
  | elseif hkeyword hguard hbody hrow ihbody ihrow =>
    exact .cons (.node (.branch (.elseif hkeyword hguard hbody hrow))
      (.word (hguard.productions.append ihbody))) ihrow
  | otherwise hkeyword hbody ih =>
    exact .node (.branch (.otherwise hkeyword hbody)) (.word ih)

theorem DerivesFile.productions {row : List Shape} (h : DerivesFile row) : Each Production row := by
  cases h with
  | bare hrow => exact hrow.productions
  | tagged _ hrow => exact .word hrow.productions

/-! ## The rule of a kind -/

/-- A list of arguments comes from its own rule. -/
theorem Production.exists_arguments {row : List Shape} (h : Production (.node .argList row)) :
    ∃ opening closing items, row = .word opening :: (items ++ [Shape.word closing]) ∧
      Derives (.items .argument) (some closing) items := by
  have hexpr (h : Standalone (.node .argList row)) {p : Prop} : p :=
    absurd (show Kind.argList.isExpr = true from h.isExpr) (by decide)
  -- No other production makes a list of arguments.
  cases h with
  | expr h => exact hexpr h
  | arguments _ _ hrow => exact ⟨_, _, _, rfl, hrow⟩
  | item h =>
    cases h with
    | argument hvalue => exact hexpr (hvalue.standalone rfl)
  | type h => cases h
  | stmt h =>
    cases h with
    | jump hkeyword | jumpWith hkeyword => exact absurd (mem_of_jumpKind? hkeyword) (by decide)
    | loop hkeyword => exact absurd (mem_of_loopKind? hkeyword) (by decide)
  | branch h => cases h

/-- A statement comes from the rule of statements. -/
theorem Production.exists_stmt {shape : Shape} (h : Production shape)
    (hkind : shape.kind.isStatement = true) : ∃ look, DerivesStmt .stmt look [shape] := by
  -- A kind is not one of expressions and one of statements.
  have hexpr {p : Prop} (h : Standalone shape) : p := by
    have hexpr := h.isExpr
    revert hexpr hkind
    cases shape.kind
    all_goals first
      | exact fun h => absurd h Bool.false_ne_true
      | exact fun _ h => absurd h Bool.false_ne_true
  cases h with
  | expr h => exact hexpr h
  | stmt h => exact ⟨_, h⟩
  | item h =>
    cases h with
    | argument hvalue => exact hexpr (hvalue.standalone rfl)
    | element | keyed | param | paramDefault => exact absurd hkind Bool.false_ne_true
  | type h => cases h <;> exact absurd hkind Bool.false_ne_true
  | branch h => cases h <;> exact absurd hkind Bool.false_ne_true
  | arguments | parameters => exact absurd hkind Bool.false_ne_true

end Grammar

/-- Every node below the root of a file without diagnostics comes from a rule of the grammar. -/
theorem Parse.production_of_mem {text : Text} {node : Node} (h : (file text).diagnostics = [])
    (hnode : node ∈ (file text).root.descendants) (hne : node.tree ≠ (file text).root.tree) :
    Grammar.Production node.tree.shape := by
  rcases clean_file_of_diagnostics h with ⟨row, hderives, hclean⟩
  rcases hclean.mem_subtreesOf_of_ne hnode hne with ⟨trees, _, _, hrow, hmem⟩
  exact hderives.productions _ (hrow ▸ Tree.shape_of_subtreesOf trees hmem)

end PhpAssist

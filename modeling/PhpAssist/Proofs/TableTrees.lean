import PhpAssist.Proofs.Tables
import PhpAssist.Tree.Builder

/-!
# Tables and trees

The same steps build a tree and a table, and the table says the same as the tree. They are built in
different ways. A tree grows from its leaves: what is finished stands in a row of trees, and a node
that finishes takes the last of them. A table numbers its nodes when they start, and a node that is
open is among the children of the one around it before anything is known of it. So while they grow
each open node shows only those of its children that are finished; the one that is not, if there is
one, is the next open node and stands last.

Both refuse the same steps, and for the same reasons.

## Main definitions

* `Agree`: Two results are the same failure, or they are related.
* `Table.ShowsTree`, `Table.ShowsRow`: Children in a table that show trees.
* `Table.Grown`: Open nodes whose finished children show the row of finished trees.
* `Table.Level`: A tree and a table in the making that refuse the same steps.
* `Table.Mirrors`: A table in the making is valid and shows a tree in the making.
* `Table.Shows`: A child in a finished table shows a tree.
* `Table.TokensOnly`: Steps whose tokens are no trivia.

## Theorems

* `Table.Mirrors.step`: A step is refused by both or keeps the one a mirror of the other.
* `Table.agree_build`: Steps are refused by both for the same reason, or give a table and its tree.
* `Table.build_wellFormed`: What steps build is what a table should be, and shows the tree that they
  build.
-/

namespace PhpAssist

/-- Two results are the same failure, or they are related. -/
inductive Agree {α β : Type} (related : α → β → Prop) :
    Except Builder.Misuse α → Except Builder.Misuse β → Prop
  | error (misuse : Builder.Misuse) : Agree related (.error misuse) (.error misuse)
  | ok {a : α} {b : β} (h : related a b) : Agree related (.ok a) (.ok b)

namespace Agree

variable {α β γ δ : Type} {related : α → β → Prop} {next : γ → δ → Prop}
  {first : Except Builder.Misuse α} {second : Except Builder.Misuse β}

theorem bind {f : α → Except Builder.Misuse γ} {g : β → Except Builder.Misuse δ}
    (h : Agree related first second) (hnext : ∀ a b, related a b → Agree next (f a) (g b)) :
    Agree next (first >>= f) (second >>= g) := by
  cases h with
  | error misuse => exact .error misuse
  | ok h => exact hnext _ _ h

/-- The first result may be rearranged. -/
theorem map_left {f : α → γ} {next : γ → β → Prop} (h : Agree related first second)
    (hnext : ∀ a b, related a b → next (f a) b) :
    Agree next (first >>= fun a => pure (f a)) second := by
  cases h with
  | error misuse => exact .error misuse
  | ok h => exact .ok (hnext _ _ h)

theorem imp {next : α → β → Prop} (h : Agree related first second)
    (hnext : ∀ a b, related a b → next a b) : Agree next first second := by
  cases h with
  | error misuse => exact .error misuse
  | ok h => exact .ok (hnext _ _ h)

theorem foldlM {ι : Type} {f : α → ι → Except Builder.Misuse α}
    {g : β → ι → Except Builder.Misuse β} {items : List ι}
    (hstep : ∀ item ∈ items, ∀ a b, related a b → Agree related (f a item) (g b item)) {a : α}
    {b : β} (h : related a b) : Agree related (items.foldlM f a) (items.foldlM g b) := by
  induction items generalizing a b with
  | nil => exact .ok h
  | cons item items ih =>
    refine (hstep item List.mem_cons_self a b h).bind fun a b h => ih ?_ h
    exact fun item hitem => hstep item (List.mem_cons_of_mem _ hitem)

end Agree

namespace Table

/-! ## Taking text -/

/-- What is left of a text behind what a table in the making has taken. -/
def Draft.Left (draft : Draft) (rest : Text) : Prop :=
  ∃ taken, draft.text = taken ++ rest ∧ Text.size taken = draft.size

/-- What a cell says of a text. -/
def Cell.piece (text : Text) (cell : Cell) : Piece := ⟨cell.kind, cell.span.of text⟩

/-- Taking bytes of what is left of a text, and moving past them in the text. -/
theorem agree_take {draft : Draft} {rest : Text} (h : draft.Left rest) (size : Nat) :
    Agree (fun parts moved =>
        moved = (⟨draft.size, size⟩, { draft with size := draft.size + size }) ∧
          moved.2.Left parts.2 ∧ (⟨draft.size, size⟩ : Span).of draft.text = parts.1)
      (Builder.take rest size) (draft.advance size) := by
  rcases h with ⟨taken, htext, hsize⟩
  rw [Builder.take, Draft.advance, htext, ← hsize, Text.splitAt?_append]
  rcases hsplit : Text.splitAt? size rest with _ | ⟨before, behind⟩
  · exact .error _
  · rcases Text.splitAt?_some hsplit with ⟨rfl, rfl⟩
    refine .ok ⟨rfl, ⟨taken ++ before, ?_, Text.size_append taken before⟩, ?_⟩
    · exact (List.append_assoc taken before behind).symm
    · rw [Span.of, Text.dropBytes_size, Text.takeBytes_size]

/-- Taking trivia of what is left of a text, and adding them to the row of tokens. -/
theorem agree_takeTrivia (parent owner : Nat) (pieces : List Builder.TriviaSize) {draft : Draft}
    {rest : Text} (h : draft.Left rest) :
    Agree (fun taken after => after = { draft with
          tokens := draft.tokens ++ triviaCells parent owner draft.size pieces
          size := draft.size + triviaSize pieces } ∧
        after.Left taken.2 ∧
        (triviaCells parent owner draft.size pieces).map (Cell.piece draft.text) =
          taken.1.map Trivia.piece)
      (Builder.takeTrivia rest pieces) (pieces.foldlM (Draft.pushTrivia parent owner) draft) := by
  -- By induction on the pieces: both sides take the same text for one, or both fail.
  induction pieces generalizing draft rest with
  | nil =>
    refine .ok ⟨?_, h, rfl⟩
    rw [triviaCells, List.append_nil, triviaSize, List.map_nil, List.sum_nil, Nat.add_zero]
  | cons piece pieces ih =>
    rw [Builder.takeTrivia, List.foldlM_cons, Draft.pushTrivia, bind_assoc]
    refine (agree_take h piece.2).bind ?_
    rintro ⟨text, behind⟩ ⟨span, moved⟩ ⟨hmoved, hleft, htext⟩
    cases hmoved
    refine (@ih { draft with
      tokens := draft.tokens ++ [⟨piece.1.kind, ⟨draft.size, piece.2⟩, parent, owner, 0, 0⟩]
      size := draft.size + piece.2 } behind hleft).map_left ?_
    rintro ⟨trivia, rest'⟩ after ⟨rfl, hleft', hpieces⟩
    refine ⟨?_, hleft', ?_⟩
    · simp only [triviaCells, triviaSize, List.map_cons, List.sum_cons, List.append_assoc,
        List.singleton_append, Nat.add_assoc]
    · rw [triviaCells, List.map_cons, hpieces, List.map_cons]
      exact congrArg (· :: _) (congrArg (Piece.mk _) htext)

/-- Taking a token of what is left of a text, and adding it to the row of tokens. -/
theorem agree_token {builder : Builder} {draft : Draft} (h : draft.Left builder.rest)
    (hbuilder : builder.opened.isEmpty = false) {innermost : Opened} {outer : List Opened}
    (hopened : draft.opened = innermost :: outer) (leading : List Builder.TriviaSize) (kind : Kind)
    (size : Nat) (trailing : List Builder.TriviaSize) :
    Agree (fun grown after => after = draft.taken innermost.node leading kind size trailing ∧
        ∃ tok rest, grown = { builder with rest, forest := builder.forest.push (.token tok) } ∧
          after.Left rest ∧ tok.leading.length = leading.length ∧
          tok.trailing.length = trailing.length ∧
          (tokenCells innermost.node draft.tokens.length draft.size leading kind size
            trailing).map (Cell.piece draft.text) = tok.pieces)
      (builder.step (.token leading kind size trailing))
      (draft.pushToken leading kind size trailing) := by
  rw [Builder.step, hbuilder, Draft.pushToken, hopened]
  refine (agree_takeTrivia innermost.node (draft.tokens.length + leading.length) leading h).bind ?_
  rintro ⟨before, rest⟩ front ⟨rfl, hleft, hbefore⟩
  refine (agree_take hleft size).bind ?_
  rintro ⟨text, rest'⟩ ⟨span, moved⟩ ⟨hmoved, hleft', htext⟩
  cases hmoved
  -- The trivia behind the token is written under the node that is open now.
  have hbehind := @agree_takeTrivia innermost.node (draft.tokens.length + leading.length) trailing
    { draft with
      tokens := draft.tokens ++
        triviaCells innermost.node (draft.tokens.length + leading.length) draft.size leading ++
        [⟨kind, ⟨draft.size + triviaSize leading, size⟩, innermost.node,
          draft.tokens.length + leading.length, leading.length, trailing.length⟩]
      opened := Draft.adopt (.token (draft.tokens.length + leading.length)) draft.opened
      size := draft.size + triviaSize leading + size } rest' hleft'
  refine hbehind.map_left ?_
  rintro ⟨behind, rest''⟩ after ⟨rfl, hleft'', htrailing⟩
  refine ⟨?_, ⟨before, kind, text, behind⟩, rest'', rfl, hleft'', ?_, ?_, ?_⟩
  · simp only [Draft.taken, tokenCells, List.append_assoc, List.singleton_append, Nat.add_assoc]
  · have hlength := congrArg List.length hbefore
    rw [List.length_map, List.length_map, length_triviaCells] at hlength
    exact hlength.symm
  · have hlength := congrArg List.length htrailing
    rw [List.length_map, List.length_map, length_triviaCells] at hlength
    exact hlength.symm
  · rw [tokenCells, List.map_append, List.map_cons, Token.pieces, hbefore, htrailing]
    exact congrArg (_ ++ · :: _) (congrArg (Piece.mk kind) htext)

/-! ## Showing trees -/

/-- The stretch of cells around a token is the pieces of a token of a tree, and the counts of the
    token tell so. -/
def Holds (text : Text) (tokens : List Cell) (tok : Token) (index : Nat) : Prop :=
  ∃ before cells behind, tokens = before ++ (cells ++ behind) ∧
    before.length + tok.leading.length = index ∧ cells.map (Cell.piece text) = tok.pieces ∧
    ∃ cell, tokens[index]? = some cell ∧ cell.leading = tok.leading.length ∧
      cell.trailing = tok.trailing.length

theorem holds_taken {text : Text} {draft : Draft} {tok : Token} (parent : Nat)
    {leading trailing : List Builder.TriviaSize} {kind : Kind} (size : Nat)
    (hleading : tok.leading.length = leading.length)
    (htrailing : tok.trailing.length = trailing.length)
    (hpieces : (tokenCells parent draft.tokens.length draft.size leading kind size
      trailing).map (Cell.piece text) = tok.pieces) :
    Holds text (draft.taken parent leading kind size trailing).tokens tok
      (draft.tokens.length + leading.length) := by
  refine ⟨draft.tokens, _, [], ?_, by rw [hleading], hpieces, _,
    draft.getElem?_taken parent leading kind size trailing, hleading.symm, htrailing.symm⟩
  rw [List.append_nil, Draft.taken]

section Shows

variable (text : Text) (tokens : List Cell) (known : Kind → Nat → List Child → Prop)

mutual

/-- A child shows a tree, where the kinds and the children of some nodes are known. -/
inductive ShowsTree : Tree → Child → Prop
  | token {tok : Token} {index : Nat} (h : Holds text tokens tok index) :
    ShowsTree (.token tok) (.token index)
  | node {kind : Kind} {index : Nat} {row : List Tree} {children : List Child}
      (h : known kind index children) (hrow : ShowsRow row children) :
    ShowsTree (.node kind row) (.node index)

/-- Some children show a row of trees. -/
inductive ShowsRow : List Tree → List Child → Prop
  | nil : ShowsRow [] []
  | cons {tree : Tree} {child : Child} {row : List Tree} {children : List Child}
      (h : ShowsTree tree child) (hrow : ShowsRow row children) :
    ShowsRow (tree :: row) (child :: children)

end

end Shows

section Stays

variable {text : Text} {tokens tokens' : List Cell} {known known' : Kind → Nat → List Child → Prop}

theorem Holds.mono {tok : Token} {index : Nat} (h : Holds text tokens tok index)
    (htokens : tokens <+: tokens') : Holds text tokens' tok index := by
  rcases h with ⟨before, cells, behind, hsplit, hindex, hpieces, cell, hcell, hcounts⟩
  have hafter := getElem?_of_prefix htokens hcell
  rcases htokens with ⟨more, rfl⟩
  refine ⟨before, cells, behind ++ more, ?_, hindex, hpieces, cell, hafter, hcounts⟩
  rw [hsplit, List.append_assoc, List.append_assoc]

mutual

theorem ShowsTree.mono {tree : Tree} {child : Child} (htokens : tokens <+: tokens')
    (hknown : ∀ {kind index children}, known kind index children → known' kind index children)
    (h : ShowsTree text tokens known tree child) : ShowsTree text tokens' known' tree child :=
  match h with
  | .token h => .token (h.mono htokens)
  | .node h hrow => .node (hknown h) (hrow.mono htokens hknown)

theorem ShowsRow.mono {row : List Tree} {children : List Child} (htokens : tokens <+: tokens')
    (hknown : ∀ {kind index children}, known kind index children → known' kind index children)
    (h : ShowsRow text tokens known row children) : ShowsRow text tokens' known' row children :=
  match h with
  | .nil => .nil
  | .cons h hrow => .cons (h.mono htokens hknown) (hrow.mono htokens hknown)

end

theorem ShowsRow.snoc {row : List Tree} {children : List Child} {tree : Tree} {child : Child}
    (hrow : ShowsRow text tokens known row children) (h : ShowsTree text tokens known tree child) :
    ShowsRow text tokens known (row ++ [tree]) (children ++ [child]) := by
  induction row generalizing children with
  | nil =>
    cases hrow
    exact .cons h .nil
  | cons head row ih =>
    cases hrow with
    | cons hhead hrow => exact .cons hhead (ih hrow)

end Stays

/-! ## Open nodes -/

/-- The kind and the children of a node that was finished. -/
def Known (closed : List Closed) (nodes : List Entry) (kind : Kind) (index : Nat)
    (children : List Child) : Prop :=
  (∃ span, ⟨⟨index, children⟩, span⟩ ∈ closed) ∧
    ∃ entry, nodes[index]? = some entry ∧ entry.kind = kind

theorem Known.mono {closed closed' : List Closed} {nodes nodes' : List Entry} {kind : Kind}
    {index : Nat} {children : List Child} (h : Known closed nodes kind index children)
    (hclosed : closed <+: closed') (hnodes : Keeps nodes nodes') :
    Known closed' nodes' kind index children := by
  rcases h with ⟨⟨span, hmem⟩, entry, hentry, hkind⟩
  rcases hnodes _ _ hentry with ⟨after, hafter, heq, -, -⟩
  exact ⟨⟨span, hclosed.subset hmem⟩, after, hafter, heq.trans hkind⟩

/-- What stands outside of all nodes, which is at most the first node. -/
def top (nodes : List Entry) : List Child := if nodes.isEmpty then [] else [.node 0]

/-- The open nodes of a tree and of a table in the making, the innermost first. The innermost one
    has some pending children at its end that are not finished; without them its children show the
    trees that are finished since it was started. -/
inductive Grown (text : Text) (tokens : List Cell) (closed : List Closed) (nodes : List Entry) :
    List Tree → List Child → List (Nat × Kind) → List Opened → Prop
  | nil {row : List Tree} {pending done : List Child} (htop : top nodes = done ++ pending)
      (hrow : ShowsRow text tokens (Known closed nodes) row done) :
      Grown text tokens closed nodes row pending [] []
  | cons {below row : List Tree} {pending done : List Child} {opens : List (Nat × Kind)}
      {opened : Opened} {entry : Entry} {outer : List Opened}
      (hentry : nodes[opened.node]? = some entry) (hchildren : opened.children = done ++ pending)
      (hrow : ShowsRow text tokens (Known closed nodes) row done)
      (houter : Grown text tokens closed nodes below [.node opened.node] opens outer) :
      Grown text tokens closed nodes (below ++ row) pending ((below.length, entry.kind) :: opens)
        (opened :: outer)

namespace Grown

variable {text : Text} {tokens tokens' : List Cell} {closed closed' : List Closed}
  {nodes nodes' : List Entry} {row : List Tree} {pending : List Child} {opens : List (Nat × Kind)}
  {opened : List Opened}

theorem mono (h : Grown text tokens closed nodes row pending opens opened)
    (htokens : tokens <+: tokens') (hclosed : closed <+: closed') (hnodes : Keeps nodes nodes')
    (htop : top nodes' = top nodes) :
    Grown text tokens' closed' nodes' row pending opens opened := by
  induction h with
  | nil hdone hrow =>
    exact .nil (htop.trans hdone) (hrow.mono htokens fun h => h.mono hclosed hnodes)
  | cons hentry hchildren hrow _ ih =>
    rcases hnodes _ _ hentry with ⟨after, hafter, hkind, -, -⟩
    rw [← hkind]
    exact .cons hafter hchildren (hrow.mono htokens fun h => h.mono hclosed hnodes) ih

/-- Once a pending child shows a tree, it is finished. -/
theorem count {child : Child} {tree : Tree}
    (h : Grown text tokens closed nodes row (child :: pending) opens opened)
    (hchild : ShowsTree text tokens (Known closed nodes) tree child) :
    Grown text tokens closed nodes (row ++ [tree]) pending opens opened := by
  cases h with
  | nil htop hrow =>
    refine .nil ?_ (hrow.snoc hchild)
    rw [htop, List.append_assoc, List.singleton_append]
  | cons hentry hchildren hrow houter =>
    rw [List.append_assoc]
    refine .cons hentry ?_ (hrow.snoc hchild) houter
    rw [hchildren, List.append_assoc, List.singleton_append]

/-- A child that is added is pending at first. -/
theorem adopt {innermost : Opened} {outer : List Opened}
    (h : Grown text tokens closed nodes row [] opens (innermost :: outer)) (child : Child) :
    Grown text tokens closed nodes row [child] opens (Draft.adopt child (innermost :: outer)) := by
  cases h with
  | cons hentry hchildren hrow houter =>
    rw [List.append_nil] at hchildren
    subst hchildren
    exact @Grown.cons _ _ _ _ _ _ _ _ _ ⟨innermost.node, innermost.children ++ [child]⟩ _ _ hentry
      rfl hrow houter

/-- There are nodes when some of them are open. -/
theorem nodes_ne_nil {innermost : Opened} {outer : List Opened}
    (h : Grown text tokens closed nodes row pending opens (innermost :: outer)) : nodes ≠ [] := by
  rintro rfl
  cases h with
  | cons hentry _ _ _ => simp at hentry

/-- A node that starts is pending in the one around it, or is the first one. -/
theorem start (h : Grown text tokens closed nodes row [] opens opened)
    (hroot : opened = [] → nodes = []) (entry : Entry) :
    Grown text tokens closed (nodes ++ [entry]) row [] ((row.length, entry.kind) :: opens)
      (⟨nodes.length, []⟩ :: Draft.adopt (.node nodes.length) opened) := by
  have hentry : (nodes ++ [entry])[nodes.length]? = some entry := by
    rw [List.getElem?_append_right (Nat.le_refl _), Nat.sub_self, List.getElem?_cons_zero]
  have hpending : Grown text tokens closed (nodes ++ [entry]) row [.node nodes.length] opens
      (Draft.adopt (.node nodes.length) opened) := by
    rcases opened with _ | ⟨innermost, outer⟩
    · -- Outside of all nodes nothing was finished yet, and what is pending is the first node.
      cases h with
      | nil htop hrow =>
        rename_i done
        rw [hroot rfl, List.append_nil] at htop
        cases (show [] = done from htop)
        cases hrow
        exact .nil (by rw [hroot rfl]; rfl) .nil
    · have htop : top (nodes ++ [entry]) = top nodes := by
        rw [top, top, List.isEmpty_eq_false_iff.mpr h.nodes_ne_nil,
          List.isEmpty_eq_false_iff.mpr (List.append_ne_nil_of_left_ne_nil h.nodes_ne_nil _)]
      exact (h.adopt _).mono List.prefix_rfl List.prefix_rfl (keeps_append _ _) htop
  -- The new node stands in front of all that is pending, and has no children yet.
  have hwhole := @Grown.cons _ _ _ _ _ _ _ _ _ ⟨nodes.length, []⟩ _ _ hentry rfl .nil hpending
  rwa [List.append_nil] at hwhole

/-- The innermost node finishes: it is known, and shows the trees since it was started. -/
theorem finish (h : Grown text tokens closed nodes row [] opens opened) (draft : Draft)
    {innermost : Opened} {outer : List Opened} (hopened : opened = innermost :: outer)
    (span : Span) :
    ∃ below inside kind more, row = below ++ inside ∧ opens = (below.length, kind) :: more ∧
      Grown text tokens (closed ++ [⟨innermost, span⟩])
        (nodes.modify innermost.node (draft.finished innermost.children))
        (below ++ [Tree.node kind inside]) [] more outer := by
  cases h with
  | nil => cases hopened
  | @cons below inside _ done more _ entry _ hentry hchildren hrow houter =>
    cases hopened
    rw [List.append_nil] at hchildren
    subst hchildren
    -- In the node around it the finished node was pending, and now it is counted.
    have hclosed := List.prefix_append closed [(⟨innermost, span⟩ : Closed)]
    have hnodes := keeps_finished nodes draft innermost.children innermost.node
    have htop : top (nodes.modify innermost.node (draft.finished innermost.children)) =
        top nodes := by
      simp only [top, List.isEmpty_iff, ← List.length_eq_zero_iff, List.length_modify]
    have hknown : Known (closed ++ [⟨innermost, span⟩])
        (nodes.modify innermost.node (draft.finished innermost.children)) entry.kind innermost.node
        innermost.children := by
      rcases hnodes _ _ hentry with ⟨after, hafter, hkind, -, -⟩
      exact ⟨⟨span, List.mem_append_right _ (List.mem_singleton_self _)⟩, after, hafter, hkind⟩
    refine ⟨below, inside, entry.kind, more, rfl, rfl, ?_⟩
    refine (houter.mono List.prefix_rfl hclosed hnodes htop).count (.node hknown ?_)
    exact hrow.mono List.prefix_rfl fun h => h.mono hclosed hnodes

end Grown

/-! ## Steps that both refuse -/

/-- The trees of a forest tell the forest. -/
theorem forest_eq {forest : Forest} {row : List Tree} (h : forest.trees = row) :
    forest = ⟨row.reverse⟩ := by
  rw [← h, Forest.trees, List.reverse_reverse]

/-- A tree and a table in the making have open nodes together. Without any, there is the tree of the
    first node where there are nodes, and there is none where there are no nodes. -/
structure Level (builder : Builder) (draft : Draft) : Prop where
  opened : builder.opened.isEmpty = draft.opened.isEmpty
  roots : draft.opened = [] → (builder.forest.latest = [] ∧ draft.nodes = []) ∨
    ∃ kind row, builder.forest.latest = [.node kind row] ∧ draft.nodes ≠ []

namespace Level

variable {builder : Builder} {draft : Draft} {related : Builder → Draft → Prop}

theorem start (h : Level builder draft) (kind : Kind)
    (hnext : (draft.opened = [] → draft.nodes = []) →
      related { builder with opened := (builder.forest.count, kind) :: builder.opened }
        (draft.entered kind)) :
    Agree related (builder.step (.start kind)) (draft.startNode kind) := by
  -- A second root is refused by both, since there is a tree where there is a node.
  have hroots : (builder.opened.isEmpty && !builder.forest.latest.isEmpty) =
      (draft.opened.isEmpty && !draft.nodes.isEmpty) := by
    rw [h.opened]
    rcases hopened : draft.opened with _ | ⟨innermost, outer⟩
    · rcases h.roots hopened with ⟨hlatest, hnodes⟩ | ⟨_, _, hlatest, hnodes⟩
      · rw [hlatest, hnodes]
        rfl
      · rw [hlatest, List.isEmpty_eq_false_iff.mpr hnodes, List.isEmpty_cons]
    · rfl
  rw [Builder.step, Draft.startNode, hroots]
  split
  · exact .error _
  · rename_i hsecond
    exact .ok (hnext fun hopened => by simpa [hopened] using hsecond)

theorem finish (h : Level builder draft)
    (hnext : ∀ start kind opens innermost outer, builder.opened = (start, kind) :: opens →
      draft.opened = innermost :: outer →
      related { builder with forest := builder.forest.close start kind, opened := opens }
        (draft.exited innermost outer)) :
    Agree related (builder.step .finish) draft.finishNode := by
  have hempty := h.opened
  -- One side has a node open exactly when the other does.
  rcases hopened : draft.opened with _ | ⟨innermost, outer⟩
  · rw [hopened, List.isEmpty_nil, List.isEmpty_iff] at hempty
    rw [Builder.step, Draft.finishNode, hempty, hopened]
    exact .error _
  · rw [hopened, List.isEmpty_cons, List.isEmpty_eq_false_iff] at hempty
    rcases List.exists_cons_of_ne_nil hempty with ⟨⟨start, kind⟩, opens, hopens⟩
    rw [Builder.step, Draft.finishNode, hopens, hopened]
    exact .ok (hnext start kind opens innermost outer hopens hopened)

theorem token (h : Level builder draft) (hleft : draft.Left builder.rest)
    (leading : List Builder.TriviaSize) (kind : Kind) (size : Nat)
    (trailing : List Builder.TriviaSize)
    (hnext : ∀ innermost outer tok rest, draft.opened = innermost :: outer →
      (draft.taken innermost.node leading kind size trailing).Left rest →
      tok.leading.length = leading.length → tok.trailing.length = trailing.length →
      (tokenCells innermost.node draft.tokens.length draft.size leading kind size
        trailing).map (Cell.piece draft.text) = tok.pieces →
      related { builder with rest, forest := builder.forest.push (.token tok) }
        (draft.taken innermost.node leading kind size trailing)) :
    Agree related (builder.step (.token leading kind size trailing))
      (draft.pushToken leading kind size trailing) := by
  have hempty := h.opened
  -- Outside of all nodes both sides refuse the token.
  rcases hopened : draft.opened with _ | ⟨innermost, outer⟩
  · rw [hopened, List.isEmpty_nil] at hempty
    rw [Builder.step, Draft.pushToken, hempty, hopened]
    exact .error _
  · rw [hopened, List.isEmpty_cons] at hempty
    refine (agree_token hleft hempty hopened leading kind size trailing).imp ?_
    rintro _ _ ⟨rfl, tok, rest, rfl, hleft, hleading, htrailing, hpieces⟩
    exact hnext innermost outer tok rest hopened hleft hleading htrailing hpieces

/-- At the end of all steps. -/
theorem finished {related : Node → Table → Prop} (h : Level builder draft)
    (hnext : ∀ kind row, draft.opened = [] → draft.nodes ≠ [] →
      builder.forest.latest = [.node kind row] → related (.root kind row) draft.table) :
    Agree related builder.finish draft.finish := by
  have hempty := h.opened
  -- With a node open both sides refuse to finish, and without one there is a root or nothing.
  rcases hopened : draft.opened with _ | ⟨innermost, outer⟩
  · rw [hopened, List.isEmpty_nil] at hempty
    rw [Builder.finish, Draft.finish, hempty, hopened]
    rcases h.roots hopened with ⟨hlatest, hnodes⟩ | ⟨kind, row, hlatest, hnodes⟩
    · rw [hlatest, hnodes]
      exact .error _
    · rw [hlatest, List.isEmpty_eq_false_iff.mpr hnodes]
      exact .ok (hnext kind row hopened hnodes hlatest)
  · rw [hopened, List.isEmpty_cons] at hempty
    rw [Builder.finish, Draft.finish, hempty, hopened]
    exact .error _

end Level

/-! ## Steps -/

/-- A table in the making is valid, and shows a tree in the making over the same text. -/
structure Mirrors (text : Text) (builder : Builder) (draft : Draft) (closed : List Closed) :
    Prop where
  valid : Valid draft closed
  text_eq : draft.text = text
  left : draft.Left builder.rest
  grown : Grown text draft.tokens closed draft.nodes builder.forest.trees [] builder.opened
    draft.opened

theorem mirrors_begin (text : Text) : Mirrors text (.begin text) (.begin text) [] where
  valid := valid_begin text
  text_eq := rfl
  left := ⟨[], rfl, rfl⟩
  grown := .nil rfl .nil

namespace Mirrors

variable {text : Text} {builder : Builder} {draft : Draft} {closed : List Closed}

/-- Both have open nodes or neither has. -/
theorem isEmpty_opened (h : Mirrors text builder draft closed) :
    builder.opened.isEmpty = draft.opened.isEmpty := by
  have hgrown := h.grown
  generalize builder.opened = opens at hgrown ⊢
  generalize draft.opened = opened at hgrown ⊢
  generalize builder.forest.trees = row at hgrown
  cases hgrown <;> rfl

/-- Without open nodes there is the tree of the first node, or there is nothing. -/
theorem closed_cases (h : Mirrors text builder draft closed) (hopened : draft.opened = []) :
    (builder.forest.latest = [] ∧ draft.nodes = []) ∨ ∃ kind row, draft.nodes ≠ [] ∧
      builder.forest.latest = [.node kind row] ∧
      ShowsTree text draft.tokens (Known closed draft.nodes) (.node kind row) (.node 0) := by
  have hgrown := h.grown
  rw [hopened] at hgrown
  have hlatest : builder.forest.latest = builder.forest.trees.reverse :=
    (List.reverse_reverse _).symm
  rw [hlatest]
  -- What is written is known by the trees and the nodes that are open, whatever they are named.
  generalize builder.forest.trees = row at hgrown ⊢
  generalize builder.opened = opens at hgrown
  cases hgrown with
  | nil htop hrow =>
    rename_i done
    rw [List.append_nil] at htop
    subst htop
    by_cases hnodes : draft.nodes = []
    · rw [hnodes] at hrow ⊢
      cases hrow
      exact .inl ⟨rfl, rfl⟩
    · rw [top, List.isEmpty_eq_false_iff.mpr hnodes] at hrow
      cases hrow with
      | cons htree hrow =>
        cases hrow
        cases htree with
        | node hknown hchildren => exact .inr ⟨_, _, hnodes, rfl, .node hknown hchildren⟩

theorem level (h : Mirrors text builder draft closed) : Level builder draft where
  opened := h.isEmpty_opened
  roots hopened := (h.closed_cases hopened).imp_right fun ⟨kind, row, hnodes, hlatest, _⟩ =>
    ⟨kind, row, hlatest, hnodes⟩

/-- The tree that is left at the end is that of the first node. -/
theorem shows_root (h : Mirrors text builder draft closed) (hopened : draft.opened = [])
    {kind : Kind} {row : List Tree} (hlatest : builder.forest.latest = [.node kind row]) :
    ShowsTree text draft.tokens (Known closed draft.nodes) (.node kind row) (.node 0) := by
  rcases h.closed_cases hopened with ⟨hnil, _⟩ | ⟨_, _, _, heq, hshows⟩
  · exact absurd (hlatest.symm.trans hnil) (List.cons_ne_nil _ _)
  · cases hlatest.symm.trans heq
    exact hshows

theorem start (h : Mirrors text builder draft closed) (kind : Kind) :
    Agree (fun builder draft => ∃ closed, Mirrors text builder draft closed)
      (builder.step (.start kind)) (draft.startNode kind) := by
  refine h.level.start kind fun hroot => ?_
  refine ⟨closed, h.valid.startNode kind hroot, h.text_eq, h.left, ?_⟩
  have hgrown := h.grown.start hroot (draft.started kind)
  rw [Forest.trees, List.length_reverse] at hgrown
  rw [Draft.entered, h.valid.headD_spare]
  exact hgrown

theorem finish (h : Mirrors text builder draft closed) :
    Agree (fun builder draft => ∃ closed, Mirrors text builder draft closed)
      (builder.step .finish) draft.finishNode := by
  refine h.level.finish fun start kind opens innermost outer hopens hopened => ?_
  rcases h.valid.finishNode hopened with ⟨span, hvalid⟩
  rcases h.grown.finish draft hopened span with ⟨below, inside, _, _, hrow, heq, hgrown⟩
  cases hopens.symm.trans heq
  refine ⟨_, hvalid, h.text_eq, h.left, ?_⟩
  rw [forest_eq hrow]
  dsimp only
  rw [Forest.trees_close]
  exact hgrown

theorem token (h : Mirrors text builder draft closed) (leading : List Builder.TriviaSize)
    (kind : Kind) (size : Nat) (trailing : List Builder.TriviaSize)
    (hkind : kind.isTrivia = false) :
    Agree (fun builder draft => ∃ closed, Mirrors text builder draft closed)
      (builder.step (.token leading kind size trailing))
      (draft.pushToken leading kind size trailing) := by
  refine h.level.token h.left leading kind size trailing ?_
  intro innermost outer tok rest hopened hleft hleading htrailing hpieces
  refine ⟨closed, h.valid.pushToken hopened hkind, h.text_eq, hleft, ?_⟩
  have hholds := holds_taken innermost.node size hleading htrailing (h.text_eq ▸ hpieces)
  have htokens : draft.tokens <+:
      (draft.taken innermost.node leading kind size trailing).tokens := List.prefix_append _ _
  -- The token is counted under the innermost node, which has grown by it.
  have hgrown := h.grown.mono htokens List.prefix_rfl (keeps_refl draft.nodes) rfl
  rw [hopened] at hgrown
  have hcounted := (hgrown.adopt _).count (.token hholds)
  rw [← Forest.trees_push, ← hopened] at hcounted
  exact hcounted

/-- Steps go on with one the mirror of the other, or both refuse. -/
theorem step (h : Mirrors text builder draft closed) {step : Builder.Step}
    (hkind : ∀ leading kind size trailing, step = .token leading kind size trailing →
      kind.isTrivia = false) :
    Agree (fun builder draft => ∃ closed, Mirrors text builder draft closed)
      (builder.step step) (draft.step step) := by
  cases step with
  | start kind => exact h.start kind
  | token leading kind size trailing =>
    exact h.token leading kind size trailing (hkind leading kind size trailing rfl)
  | finish => exact h.finish

end Mirrors

/-- The tokens of steps, which are not trivia. -/
def TokensOnly (steps : List Builder.Step) : Prop :=
  ∀ leading kind size trailing, .token leading kind size trailing ∈ steps → kind.isTrivia = false

/-- From steps that both take, the one stays a mirror of the other. -/
theorem agree_foldlM (text : Text) {steps : List Builder.Step} (hsteps : TokensOnly steps) :
    Agree (fun builder draft => ∃ closed, Mirrors text builder draft closed)
      (steps.foldlM Builder.step (.begin text)) (steps.foldlM Draft.step (.begin text)) := by
  refine Agree.foldlM ?_ ⟨[], mirrors_begin text⟩
  rintro step hstep builder draft ⟨closed, h⟩
  refine h.step fun leading kind size trailing heq => ?_
  exact hsteps leading kind size trailing (heq ▸ hstep)

/-! ## Finished tables -/

/-- The kind and the children of a node. -/
def Says (table : Table) (kind : Kind) (index : Nat) (children : List Child) : Prop :=
  ∃ entry, table.nodes[index]? = some entry ∧ entry.kind = kind ∧
    table.childrenOf entry = children

/-- A child in a table shows a tree. -/
def Shows (table : Table) : Tree → Child → Prop := ShowsTree table.text table.tokens table.Says

theorem Valid.says {draft : Draft} {closed : List Closed} (h : Valid draft closed) {kind : Kind}
    {index : Nat} {children : List Child} (hknown : Known closed draft.nodes kind index children) :
    draft.table.Says kind index children := by
  rcases hknown with ⟨⟨span, hmem⟩, entry, hentry, hkind⟩
  rcases List.getElem?_of_mem hmem with ⟨place, hplace⟩
  rcases h.recorded place _ hplace with ⟨record, hrecord, hrecorded⟩
  cases Option.some.inj (hrecord.symm.trans hentry)
  exact ⟨_, hentry, hkind, h.childrenOf_eq hplace hrecorded⟩

/-- What steps build is what a table should be, and shows the tree that they build. -/
theorem agree_build (text : Text) {steps : List Builder.Step} (hsteps : TokensOnly steps) :
    Agree (fun source table => table.WellFormed ∧ table.text = source.text ∧
        table.Shows source.root.tree (.node 0))
      (Builder.run text steps) (build text steps) := by
  refine (agree_foldlM text hsteps).bind ?_
  rintro builder draft ⟨closed, h⟩
  -- The table that is left has one root, and its text is the one that was cut.
  have hfinished : Agree (fun root table => table.WellFormed ∧ table.text = text ∧
      table.Shows root.tree (.node 0)) builder.finish draft.finish := by
    refine h.level.finished fun kind row hopened hnodes hlatest => ?_
    refine ⟨h.valid.wellFormed hopened hnodes, h.text_eq, ?_⟩
    have hmono := (h.shows_root hopened hlatest).mono List.prefix_rfl h.valid.says
    rw [← h.text_eq] at hmono
    exact hmono
  exact hfinished.map_left fun _ _ h => h

/-- Whatever steps are taken over a text: either a tree and a table are refused for the same reason,
    or the table is what it should be and shows the tree. -/
theorem build_wellFormed (text : Text) {steps : List Builder.Step} (hsteps : TokensOnly steps) :
    (∃ misuse, Builder.run text steps = .error misuse ∧ build text steps = .error misuse) ∨
      ∃ source table, Builder.run text steps = .ok source ∧ build text steps = .ok table ∧
        table.WellFormed ∧ table.text = source.text ∧ table.Shows source.root.tree (.node 0) := by
  have hagree := agree_build text hsteps
  generalize Builder.run text steps = source at hagree ⊢
  generalize build text steps = table at hagree ⊢
  cases hagree with
  | error misuse => exact .inl ⟨misuse, rfl, rfl⟩
  | ok h => exact .inr ⟨_, _, rfl, rfl, h⟩

/-- A call in a statement, where the list of arguments is missing and so is a node of nothing. -/
def callSteps : List Builder.Step :=
  [.start .sourceFile, .start .exprStmt, .start .callExpr, .start .nameRef,
    .token [(.whitespace, 1)] .name 1 [], .finish, .start .argList, .finish, .finish,
    .token [] .semicolon 1 [(.whitespace, 1), (.newline, 1)], .finish, .finish]

theorem build_wellFormed_call :
    ∃ source table, Builder.run " f; \n".toList callSteps = .ok source ∧
      build " f; \n".toList callSteps = .ok table ∧ table.WellFormed ∧
      table.text = source.text ∧ table.Shows source.root.tree (.node 0) := by
  have hsteps : TokensOnly callSteps := by
    intro leading kind size trailing hmem
    simp only [callSteps, List.mem_cons, reduceCtorEq, Builder.Step.token.injEq, List.not_mem_nil,
      false_or, or_false] at hmem
    rcases hmem with ⟨-, rfl, -, -⟩ | ⟨-, rfl, -, -⟩ <;> rfl
  rcases build_wellFormed " f; \n".toList hsteps with ⟨misuse, hrun, -⟩ | h
  · cases hrun
  · exact h

end Table

end PhpAssist

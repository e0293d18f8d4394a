import Mathlib.Data.List.Nodup
import PhpAssist.Proofs.Replay

/-!
# Sketches of trees

A tree as a history tells of it has nodes told by the markers that were handed out for them and
leaves told by when they were read. Written out, a sketch is a row of brackets, and each of them is
a step for a `Builder` once the kinds of the nodes are known.

A step that finishes a node does not say which one it finishes, so rows of brackets that differ in
nothing else build the same tree. `Bracket.blank` forgets the difference. Whether a row is that of a
sketch up to this depends on counting alone: nowhere have more nodes been closed than opened, and
in the end all of them. The induction over such a row has to go through rows that close more than
they open, so `exists_rows` is told of a row with something open in front of it.

## Main definitions

* `Log.Bracket`: How a sketch is written.
* `Log.Sketch`: A tree whose nodes are told by markers.
* `Sketch.brackets`, `Sketch.tree`: A sketch written out, and with kinds in it.
* `Sketch.nodes`, `Sketch.spine`: The nodes of a sketch, and those along the first children.

## Theorems

* `Sketch.steps_tree`: The steps of a tree are the brackets of its sketch.
* `Sketch.brackets_of_mem_nodes`: A node in the brackets of the whole.
* `Sketch.closed_perm_opened`: What is opened is closed.
* `Sketch.exists_rows`: When a row of brackets is that of a row of sketches.
-/

namespace PhpAssist

namespace Log

/-- How a sketch is written. -/
inductive Bracket where
  | opens (marker : Marker)
  | reads (time : Nat) (token : Token)
  | closes (marker : Marker)

namespace Bracket

/-- The marker of the node that a bracket opens. -/
def opened? : Bracket → Option Marker
  | .opens marker => some marker
  | _ => none

/-- The marker of the node that a bracket closes. -/
def closed? : Bracket → Option Marker
  | .closes marker => some marker
  | _ => none

/-- The token that was read, with its time. -/
def read? : Bracket → Option (Nat × Token)
  | .reads time tok => some (time, tok)
  | _ => none

/-- The nodes that are opened in a row of brackets. -/
def opened (row : List Bracket) : List Marker := row.filterMap opened?

/-- The nodes that are closed in a row of brackets. -/
def closed (row : List Bracket) : List Marker := row.filterMap closed?

/-- The tokens in a row of brackets, with the times when they were read. -/
def read (row : List Bracket) : List (Nat × Token) := row.filterMap read?

/-- Forgets which node is closed. -/
def blank : Bracket → Bracket
  | .closes _ => .closes ⟨0⟩
  | bracket => bracket

/-- The step that a bracket is. -/
def step (kindOf : Marker → Kind) : Bracket → Builder.Step
  | .opens marker => .start (kindOf marker)
  | .reads _ tok => Event.tokenStep tok
  | .closes _ => .finish

theorem opened_map_blank (row : List Bracket) : opened (row.map blank) = opened row := by
  rw [opened, List.filterMap_map, opened]
  congr 1
  funext bracket
  cases bracket <;> rfl

theorem read_map_blank (row : List Bracket) : read (row.map blank) = read row := by
  rw [read, List.filterMap_map, read]
  congr 1
  funext bracket
  cases bracket <;> rfl

theorem map_step_blank (kindOf : Marker → Kind) (row : List Bracket) :
    (row.map blank).map (step kindOf) = row.map (step kindOf) := by
  rw [List.map_map]
  refine List.map_congr_left fun bracket _ => ?_
  cases bracket <;> rfl

theorem opened?_eq_some {bracket : Bracket} {marker : Marker} :
    bracket.opened? = some marker ↔ bracket = .opens marker := by
  cases bracket with
  | opens other => rw [opened?, Option.some.injEq, opens.injEq]
  | _ => exact iff_of_false (fun h => Option.some_ne_none _ h.symm) Bracket.noConfusion

theorem closed?_eq_some {bracket : Bracket} {marker : Marker} :
    bracket.closed? = some marker ↔ bracket = .closes marker := by
  cases bracket with
  | closes other => rw [closed?, Option.some.injEq, closes.injEq]
  | _ => exact iff_of_false (fun h => Option.some_ne_none _ h.symm) Bracket.noConfusion

theorem mem_opened {row : List Bracket} {marker : Marker} :
    marker ∈ opened row ↔ .opens marker ∈ row := by
  simp only [opened, List.mem_filterMap, opened?_eq_some, exists_eq_right]

theorem mem_closed {row : List Bracket} {marker : Marker} :
    marker ∈ closed row ↔ .closes marker ∈ row := by
  simp only [closed, List.mem_filterMap, closed?_eq_some, exists_eq_right]

theorem nodup_opened {row : List Bracket} (h : row.Nodup) : (opened row).Nodup :=
  h.filterMap fun _ _ _ hfirst hsecond =>
    (opened?_eq_some.mp hfirst).trans (opened?_eq_some.mp hsecond).symm

theorem nodup_closed {row : List Bracket} (h : row.Nodup) : (closed row).Nodup :=
  h.filterMap fun _ _ _ hfirst hsecond =>
    (closed?_eq_some.mp hfirst).trans (closed?_eq_some.mp hsecond).symm

end Bracket

/-- A tree whose nodes and leaves are told by when they were noted. -/
inductive Sketch where
  | token (time : Nat) (token : Token)
  | node (marker : Marker) (children : List Sketch)

namespace Sketch

mutual

/-- A tree written in brackets. -/
def brackets : Sketch → List Bracket
  | .token time tok => [.reads time tok]
  | .node marker children => .opens marker :: (bracketsOf children ++ [.closes marker])

/-- The brackets of a row of sketches. -/
def bracketsOf : List Sketch → List Bracket
  | [] => []
  | sketch :: more => sketch.brackets ++ bracketsOf more

end

mutual

/-- The tree, with the kinds that the nodes were completed with. -/
def tree (kindOf : Marker → Kind) : Sketch → Tree
  | .token _ tok => .token tok
  | .node marker children => .node (kindOf marker) (treesOf kindOf children)

/-- A row of sketches as trees. -/
def treesOf (kindOf : Marker → Kind) : List Sketch → List Tree
  | [] => []
  | sketch :: more => sketch.tree kindOf :: treesOf kindOf more

end

mutual

/-- A node and all nodes below it, parents first. -/
def nodes : Sketch → List Sketch
  | .token _ _ => []
  | .node marker children => .node marker children :: nodesOf children

/-- The nodes in a row of sketches. -/
def nodesOf : List Sketch → List Sketch
  | [] => []
  | sketch :: more => sketch.nodes ++ nodesOf more

end

mutual

/-- The nodes met on the way down along the first children. -/
def spine : Sketch → List Marker
  | .token _ _ => []
  | .node marker children => marker :: spineOf children

/-- The way down along first children from a row of sketches. -/
def spineOf : List Sketch → List Marker
  | [] => []
  | sketch :: _ => sketch.spine

end

/-- The nodes in a row of sketches. -/
def markersOf (row : List Sketch) : List Marker := Bracket.opened (bracketsOf row)

/-- The leaves of a row of sketches, with the times when they were read. -/
def leavesOf (row : List Sketch) : List (Nat × Token) := Bracket.read (bracketsOf row)

/-! ## Sketches and trees -/

mutual

theorem steps_tree (kindOf : Marker → Kind) (sketch : Sketch) :
    (sketch.tree kindOf).steps = sketch.brackets.map (Bracket.step kindOf) :=
  match sketch with
  | .token _ _ => rfl
  | .node _ children => by
    rw [tree, Tree.steps, stepsOf_treesOf kindOf children, brackets, List.map_cons, List.map_append]
    rfl

theorem stepsOf_treesOf (kindOf : Marker → Kind) (row : List Sketch) :
    Tree.stepsOf (treesOf kindOf row) = (bracketsOf row).map (Bracket.step kindOf) :=
  match row with
  | [] => rfl
  | sketch :: more => by
    rw [treesOf, Tree.stepsOf, steps_tree kindOf sketch, stepsOf_treesOf kindOf more, bracketsOf,
      List.map_append]

end

mutual

theorem tokens_tree (kindOf : Marker → Kind) (sketch : Sketch) :
    (sketch.tree kindOf).tokens = (sketch.brackets.filterMap Bracket.read?).map Prod.snd :=
  match sketch with
  | .token _ _ => rfl
  | .node marker children => by
    rw [tree, Tree.tokens, tokensOf_treesOf kindOf children, leavesOf, brackets,
      List.filterMap_cons_none (f := Bracket.read?) rfl, List.filterMap_append]
    exact congrArg _ (List.append_nil _).symm

theorem tokensOf_treesOf (kindOf : Marker → Kind) (row : List Sketch) :
    Tree.tokensOf (treesOf kindOf row) = (leavesOf row).map Prod.snd :=
  match row with
  | [] => rfl
  | sketch :: more => by
    rw [treesOf, Tree.tokensOf, tokens_tree kindOf sketch, tokensOf_treesOf kindOf more,
      ← List.map_append, leavesOf, Bracket.read, ← List.filterMap_append, ← bracketsOf, leavesOf,
      Bracket.read]

end

/-! ## The nodes of a sketch -/

mutual

/-- A node stands in the brackets of its sketch with what is below it inside. -/
theorem infix_of_mem_nodes {sketch node : Sketch} (h : node ∈ sketch.nodes) :
    node.brackets <:+: sketch.brackets :=
  match sketch with
  | .token _ _ => absurd h List.not_mem_nil
  | .node marker children => by
    rw [nodes] at h
    rcases List.mem_cons.mp h with rfl | hmem
    · exact List.infix_rfl
    -- The brackets of the children stand between those of the node.
    · have hinside : bracketsOf children <:+: (Sketch.node marker children).brackets := by
        refine ⟨[.opens marker], [.closes marker], ?_⟩
        rw [brackets, List.singleton_append, List.cons_append]
      exact (infix_of_mem_nodesOf hmem).trans hinside

theorem infix_of_mem_nodesOf {row : List Sketch} {node : Sketch} (h : node ∈ nodesOf row) :
    node.brackets <:+: bracketsOf row :=
  match row with
  | [] => absurd h List.not_mem_nil
  | sketch :: more => by
    rw [nodesOf] at h
    rw [bracketsOf]
    rcases List.mem_append.mp h with hmem | hmem
    · exact (infix_of_mem_nodes hmem).trans (List.prefix_append _ _).isInfix
    · exact (infix_of_mem_nodesOf hmem).trans (List.suffix_append _ _).isInfix

end

theorem brackets_of_mem_nodes {sketch : Sketch} {marker : Marker} {children : List Sketch}
    (h : .node marker children ∈ sketch.nodes) : ∃ front behind, sketch.brackets =
      front ++ Bracket.opens marker :: (bracketsOf children ++ .closes marker :: behind) := by
  rcases infix_of_mem_nodes h with ⟨front, behind, hwhole⟩
  refine ⟨front, behind, ?_⟩
  rw [← hwhole, brackets]
  simp only [List.append_assoc, List.cons_append, List.nil_append]

mutual

/-- A node that is opened is a node of the sketch. -/
theorem exists_of_mem_opened {sketch : Sketch} {marker : Marker}
    (h : .opens marker ∈ sketch.brackets) : ∃ children, .node marker children ∈ sketch.nodes :=
  match sketch with
  | .token _ _ => absurd (List.mem_singleton.mp h) Bracket.noConfusion
  | .node other children => by
    rw [nodes]
    rcases List.mem_cons.mp h with heq | hmem
    · injection heq with heq
      rw [heq]
      exact ⟨children, List.mem_cons_self⟩
    -- Opened inside; the last bracket only closes.
    rcases List.mem_append.mp hmem with hmem | hmem
    · rcases exists_of_mem_openedOf hmem with ⟨more, hmore⟩
      exact ⟨more, List.mem_cons_of_mem _ hmore⟩
    · exact absurd (List.mem_singleton.mp hmem) Bracket.noConfusion

theorem exists_of_mem_openedOf {row : List Sketch} {marker : Marker}
    (h : .opens marker ∈ bracketsOf row) : ∃ children, .node marker children ∈ nodesOf row :=
  match row with
  | [] => absurd h List.not_mem_nil
  | sketch :: more => by
    rw [nodesOf]
    rcases List.mem_append.mp h with hmem | hmem
    · rcases exists_of_mem_opened hmem with ⟨children, hchildren⟩
      exact ⟨children, List.mem_append_left _ hchildren⟩
    · rcases exists_of_mem_openedOf hmem with ⟨children, hchildren⟩
      exact ⟨children, List.mem_append_right _ hchildren⟩

end

mutual

/-- What is opened is closed, once each. -/
theorem closed_perm_opened (sketch : Sketch) :
    (Bracket.closed sketch.brackets).Perm (Bracket.opened sketch.brackets) :=
  match sketch with
  | .token _ _ => .nil
  | .node marker children => by
    have hchildren := closedOf_perm_openedOf children
    have hclosed : Bracket.closed (Sketch.node marker children).brackets =
        Bracket.closed (bracketsOf children) ++ [marker] :=
      List.filterMap_append (f := Bracket.closed?)
    have hopened : Bracket.opened (Sketch.node marker children).brackets =
        marker :: markersOf children := by
      rw [brackets, Bracket.opened, List.filterMap_cons_some (f := Bracket.opened?) rfl,
        List.filterMap_append]
      exact congrArg _ (List.append_nil _)
    -- The node is opened first and closed last.
    rw [hclosed, hopened]
    exact (hchildren.append_right [marker]).trans (List.perm_append_singleton _ _)

theorem closedOf_perm_openedOf (row : List Sketch) :
    (Bracket.closed (bracketsOf row)).Perm (markersOf row) :=
  match row with
  | [] => .nil
  | sketch :: more => by
    have hsketch := closed_perm_opened sketch
    have hmore := closedOf_perm_openedOf more
    rw [markersOf, bracketsOf, Bracket.closed, Bracket.opened, List.filterMap_append,
      List.filterMap_append]
    exact hsketch.append hmore

end

mutual

theorem nodes_subset {sketch node : Sketch} (h : node ∈ sketch.nodes) :
    node.nodes ⊆ sketch.nodes :=
  match sketch with
  | .token _ _ => absurd h List.not_mem_nil
  | .node marker children => by
    rw [nodes] at h
    rcases List.mem_cons.mp h with rfl | hmem
    · exact List.Subset.refl _
    · rw [nodes]
      exact List.subset_cons_of_subset _ (nodes_subset_nodesOf hmem)

theorem nodes_subset_nodesOf {row : List Sketch} {node : Sketch} (h : node ∈ nodesOf row) :
    node.nodes ⊆ nodesOf row :=
  match row with
  | [] => absurd h List.not_mem_nil
  | sketch :: more => by
    rw [nodesOf] at h ⊢
    rcases List.mem_append.mp h with hmem | hmem
    · exact List.subset_append_of_subset_left _ (nodes_subset hmem)
    · exact List.subset_append_of_subset_right _ (nodes_subset_nodesOf hmem)

end

/-- The first child of a node of a sketch is a node of the sketch, too. -/
theorem mem_nodes_of_first {sketch : Sketch} {marker first : Marker}
    {firsts more : List Sketch} (h : .node marker (.node first firsts :: more) ∈ sketch.nodes) :
    .node first firsts ∈ sketch.nodes := by
  refine nodes_subset h ?_
  rw [nodes, nodesOf, nodes]
  exact List.mem_cons_of_mem _ List.mem_cons_self

/-! ## Rows of brackets -/

/-- A row of brackets in which at no place more nodes have been closed than opened, but for some
    that are open in front of it, is a row of sketches with more rows behind the ends of those. -/
theorem exists_rows (writing : List Bracket) (depth : Nat)
    (hfront : ∀ front, front <+: writing →
      (Bracket.closed front).length ≤ (Bracket.opened front).length + depth)
    (hwhole : (Bracket.closed writing).length = (Bracket.opened writing).length + depth) :
    ∃ (row : List Sketch) (rows : List (List Sketch)), rows.length = depth ∧
      writing.map Bracket.blank = (bracketsOf row ++
        rows.flatMap fun more => .closes ⟨0⟩ :: bracketsOf more).map Bracket.blank := by
  induction writing generalizing depth with
  | nil =>
    have hdepth : 0 = 0 + depth := hwhole
    exact ⟨[], [], by rw [List.length_nil]; omega, rfl⟩
  | cons bracket writing ih =>
    have hcons {front : List Bracket} (hpart : front <+: writing) :=
      hfront (bracket :: front) (List.cons_prefix_cons.mpr ⟨rfl, hpart⟩)
    cases bracket with
    | reads time tok =>
      rcases ih depth (fun front hpart => hcons hpart) hwhole with ⟨row, rows, hlength, hrows⟩
      refine ⟨.token time tok :: row, rows, hlength, ?_⟩
      rw [List.map_cons, hrows]
      rfl
    | opens marker =>
      have hfront' (front : List Bracket) (hpart : front <+: writing) :
          (Bracket.closed front).length ≤ (Bracket.opened front).length + (depth + 1) := by
        have hmore : (Bracket.closed front).length ≤ (Bracket.opened front).length + 1 + depth :=
          hcons hpart
        omega
      have hwhole' : (Bracket.closed writing).length =
          (Bracket.opened writing).length + 1 + depth := hwhole
      -- What is open afterwards is closed in front of the rows that stood behind it before.
      rcases ih (depth + 1) hfront' (by omega) with ⟨row, _ | ⟨next, rows⟩, hlength, hrows⟩
      · exact absurd hlength (Nat.zero_ne_add_one depth)
      · refine ⟨.node marker row :: next, rows, Nat.succ.inj hlength, ?_⟩
        rw [List.map_cons, hrows]
        simp only [bracketsOf, brackets, List.flatMap_cons, List.map_append, List.map_cons,
          List.cons_append, List.append_assoc, List.nil_append, Bracket.blank]
    | closes marker =>
      have hfirst : 1 ≤ 0 + depth := hcons List.nil_prefix
      have hfront' (front : List Bracket) (hpart : front <+: writing) :
          (Bracket.closed front).length ≤ (Bracket.opened front).length + (depth - 1) := by
        have hmore : (Bracket.closed front).length + 1 ≤ (Bracket.opened front).length + depth :=
          hcons hpart
        omega
      have hwhole' : (Bracket.closed writing).length + 1 =
          (Bracket.opened writing).length + depth := hwhole
      -- The innermost node that is open in front ends here, and what follows is behind it.
      rcases ih (depth - 1) hfront' (by omega) with ⟨row, rows, hlength, hrows⟩
      refine ⟨[], row :: rows, by rw [List.length_cons]; omega, ?_⟩
      rw [List.map_cons, hrows]
      simp only [bracketsOf, List.flatMap_cons, List.map_append, List.map_cons, List.nil_append,
        List.cons_append, Bracket.blank]

end Sketch

end Log

end PhpAssist

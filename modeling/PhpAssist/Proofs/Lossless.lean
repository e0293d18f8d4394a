import PhpAssist.Parse
import PhpAssist.Proofs.Accounting
import PhpAssist.Proofs.Tokens

/-!
# Trees hold their whole text

Whatever a text looks like, the log of its parse builds a tree: every node that was started was
completed, there is one root, and every token ends where a character ends. The leaves of the tree
are the tokens of the text, and they stand where they stood.

The only thing that is asked is that the parse came to its end. A parse that did not is one that
used its allowance up, so the allowance is a parameter here, and any that is enough will do.

## Main definitions

* `Lexeme`: What is known about a token in a text: its kind, where it stands and its trivia.
* `Lexing.lexemes`, `Leaf.lexeme`: The tokens of a text, and a leaf of a tree, in this form.
* `Parse.IsEntry`: The two rules a text is read by.

## Theorems

* `Grammar.ahead_stmtList`: Statements up to the end of the text leave no token ahead.
* `Parse.build_of_reads`: A root with its row of trees is built.
* `Node.lexemes_leaves`: Where the leaves of a root stand follows from the tokens before them.
* `Parse.lossless`: A parse that ends builds a tree that holds the text and its tokens.
* `Parse.update_file`: What a stored parse is worth when the text is parsed again.
-/

namespace PhpAssist

/-- What is known about a token in a text. -/
structure Lexeme where
  kind : Kind
  span : Span
  leading : List Trivia
  trailing : List Trivia
  deriving DecidableEq

/-- Tokens in a text, the trivia of the first of them beginning at an offset. -/
def Token.lexemes (offset : Nat) : List Token → List Lexeme
  | [] => []
  | tok :: more =>
    ⟨tok.kind, tok.spanAt offset, tok.leading, tok.trailing⟩ :: lexemes (offset + tok.size) more

/-- The tokens of a text where they stand, the one for the end of the text included. -/
def Lexing.lexemes (lexing : Lexing) : List Lexeme := Token.lexemes 0 lexing.all

/-- A leaf of a tree where it stands. -/
def Leaf.lexeme (leaf : Leaf) : Lexeme :=
  ⟨leaf.kind, leaf.span, leaf.token.leading, leaf.token.trailing⟩

namespace Token

theorem lexemes_append (offset : Nat) (tokens more : List Token) :
    lexemes offset (tokens ++ more) =
      lexemes offset tokens ++ lexemes (offset + Text.size (tokens.flatMap fullText)) more := by
  induction tokens generalizing offset with
  | nil => rfl
  | cons tok tokens ih =>
    rw [List.cons_append, lexemes, lexemes, ih, List.flatMap_cons, Text.size_append, size,
      List.cons_append, Nat.add_assoc]

end Token

namespace Node

/-- The leaves among some elements where they stand. -/
def lexemesOf (elements : List Element) : List Lexeme :=
  (elements.filterMap Element.leaf?).map Leaf.lexeme

theorem lexemesOf_append (elements more : List Element) :
    lexemesOf (elements ++ more) = lexemesOf elements ++ lexemesOf more := by
  rw [lexemesOf, List.filterMap_append, List.map_append, lexemesOf, lexemesOf]

mutual

/-- Below a tree in place stand its tokens, one behind the other. -/
theorem lexemes_locate (parents : List Node) (place : Place) (tree : Tree) :
    lexemesOf (locate parents place tree) = Token.lexemes place.bytes tree.tokens :=
  match tree with
  | .token _ => rfl
  | .node kind children => by
    have hchildren := lexemes_locateAll (⟨kind, children, place, parents⟩ :: parents)
      place.inside children
    rw [locate, ← List.singleton_append, lexemesOf_append, hchildren, Tree.tokens]
    rfl

theorem lexemes_locateAll (parents : List Node) (place : Place) (row : List Tree) :
    lexemesOf (locateAll parents place row) = Token.lexemes place.bytes (Tree.tokensOf row) :=
  match row with
  | [] => rfl
  | tree :: more => by
    have hmore := lexemes_locateAll parents (place.after tree) more
    rw [locateAll, lexemesOf_append, lexemes_locate parents place tree, hmore, Tree.tokensOf,
      Token.lexemes_append]
    rfl

end

theorem lexemes_leaves (kind : Kind) (children : List Tree) :
    (Node.root kind children).leaves.map Leaf.lexeme =
      Token.lexemes 0 (Tree.tokensOf children) := by
  have hbelow := lexemes_locateAll (Node.root kind children).ancestors Place.origin.inside children
  rw [leaves, subtree]
  exact hbelow

mutual

theorem leaves_locate (parents : List Node) (place : Place) (tree : Tree) :
    ((locate parents place tree).filterMap Element.leaf?).map Leaf.token = tree.tokens :=
  match tree with
  | .token _ => rfl
  | .node kind children =>
    leaves_locateAll (⟨kind, children, place, parents⟩ :: parents) place.inside children

theorem leaves_locateAll (parents : List Node) (place : Place) (row : List Tree) :
    ((locateAll parents place row).filterMap Element.leaf?).map Leaf.token =
      Tree.tokensOf row :=
  match row with
  | [] => rfl
  | tree :: more => by
    rw [locateAll, List.filterMap_append, List.map_append, leaves_locate parents place tree,
      leaves_locateAll parents (place.after tree) more, Tree.tokensOf]

end

/-- The tokens of the leaves of a node are those of its children. -/
theorem token_leaves (node : Node) : node.leaves.map Leaf.token = Tree.tokensOf node.children :=
  leaves_locateAll node.ancestors node.place.inside node.children

end Node

namespace Event

mutual

/-- Every start that a row of trees is told by has its kind. -/
theorem Writes.marked {events : List Event} {row : List Tree} (h : Writes events row) :
    unmarked ∉ events :=
  match h with
  | .nil => List.not_mem_nil
  | .token tok more => by
    rw [List.mem_cons, not_or]
    exact ⟨by simp only [unmarked, reduceCtorEq, not_false_eq_true], more.marked⟩
  | .node first more => by
    have hfirst := first.marked
    rw [List.mem_append, List.mem_cons, List.mem_append, not_or, not_or, not_or]
    rw [List.mem_append, List.mem_cons, not_or, not_or] at hfirst
    exact ⟨hfirst.1, hfirst.2.1, hfirst.2.2, more.marked⟩

theorem WritesNode.marked {before behind : List Event} {kind : Kind} {children : List Tree}
    (h : WritesNode before kind behind children) :
    unmarked ∉ before ++ .start kind none :: behind :=
  match h with
  | .plain _ hkind inside => by
    have hinside := inside.marked
    have hstart : unmarked ≠ .start kind none := by
      simp only [unmarked, ne_eq, Event.start.injEq, and_true]
      exact Ne.symm hkind
    simp only [List.nil_append, List.mem_cons, List.mem_append, List.not_mem_nil, or_false, hinside,
      hstart, false_or]
    simp only [unmarked, reduceCtorEq, not_false_eq_true]
  -- The operand that the node goes around was written before its start.
  | .around _ hkind operand inside => by
    have hoperand := operand.marked
    have hinside := inside.marked
    have hstart : unmarked ≠ .start kind none := by
      simp only [unmarked, ne_eq, Event.start.injEq, and_true]
      exact Ne.symm hkind
    rw [List.mem_append, List.mem_cons, not_or, not_or] at hoperand
    simp only [List.mem_append, List.mem_cons, List.not_mem_nil, or_false, hoperand, hinside, hstart,
      false_or]
    simp only [unmarked, Event.start.injEq, reduceCtorEq, and_false, or_false, not_false_eq_true]

end

end Event

namespace Grammar

/-- Statements up to the end of the text leave no token ahead when they come to an end. -/
theorem ahead_stmtList {allowance : Nat} {state : State}
    (hends : (stmtList .endOfFile allowance state).stalled = false)
    (htokens : ∀ tok ∈ state.ahead, tok.kind ≠ .endOfFile) :
    (stmtList .endOfFile allowance state).ahead = [] := by
  induction allowance generalizing state with
  | zero => exact absurd hends (by simp only [stmtList, State.stall, Bool.true_eq_false,
      not_false_eq_true])
  | succ allowance ih =>
    rw [stmtList] at hends ⊢
    split at hends
    · rename_i hat
      rw [if_pos hat]
      rw [Bool.or_self] at hat
      rcases hahead : state.ahead with _ | ⟨tok, rest⟩
      · rfl
      · have hkind : state.kind = tok.kind := by rw [State.kind, hahead]
        rw [State.isAt, hkind, beq_iff_eq] at hat
        exact absurd hat (htokens tok (by rw [hahead]; exact List.mem_cons_self))
    · rename_i hat
      rw [if_neg hat]
      refine ih hends fun tok htok => htokens tok ?_
      -- What is ahead behind a statement was ahead before it.
      rcases (stmtRules allowance).stmt state with ⟨row, hrow⟩
      rw [hrow.ahead, List.mem_append]
      refine .inr ?_
      split at htok
      · rcases Accounted.reject (stmt allowance state) "expected statement" with ⟨more, hmore⟩
        rw [hmore.ahead, List.mem_append]
        exact .inr htok
      · exact htok

end Grammar

namespace Parse

/-- A rule that a whole text is read by: a file with its opening tag, or statements alone. -/
inductive IsEntry : (Nat → Grammar.State → Grammar.State) → Prop
  | file : IsEntry Grammar.sourceFile
  | fragment : IsEntry Grammar.fragment

/-- The state in which a text is read from its beginning. -/
abbrev start (text : Text) : Grammar.State := .begin (Lexing.of text)

/-- The state behind the end of a text: the end is read, and the root is closed. -/
def ending (text : Text) (after : Grammar.State) : Grammar.State :=
  after.readEnd.close (start text).mark .sourceFile

/-- Where all tokens of a text were read behind the start of the root, the root is built with what
    was read and the end of the text, and the log tells of nothing else. -/
theorem build_of_reads {text : Text} {after : Grammar.State} {row : List Tree}
    (hrow : Grammar.Reads (start text).start after row) (hahead : after.ahead = []) :
    ∃ behind, Event.WritesNode [] .sourceFile behind (row ++ [Tree.token (Lexing.of text).last]) ∧
      (ending text after).log.events = .start .sourceFile none :: behind ∧
      (ending text after).log.build text =
        .ok ⟨text, .root .sourceFile (row ++ [Tree.token (Lexing.of text).last])⟩ := by
  have hread : after.readEnd.log = after.log.push (.token (Lexing.of text).last) := by
    have hlast : after.last = (Lexing.of text).last := hrow.last
    rw [Grammar.State.readEnd, hahead, hlast]
  have htells := hrow.log.trans (Log.Tells.token after.log (Lexing.of text).last)
  rw [← hread] at htells
  have hroot : Kind.sourceFile ≠ .tombstone := by decide
  rcases Log.Tells.complete hroot htells with ⟨behind, hnode, hlog⟩
  -- What was told since the start is the root node, complete.
  have hending : (ending text after).log = (start text).log.extend
      (.start .sourceFile none :: behind) := hlog
  have hevents : (ending text after).log.events = .start .sourceFile none :: behind := by
    rw [hending, Log.events, Log.extend]
    exact (congrArg List.reverse (List.append_nil _)).trans (List.reverse_reverse _)
  have htext : (Tree.node .sourceFile (row ++ [Tree.token (Lexing.of text).last])).fullText =
      text := by
    have htokens : (Lexing.of text).tokens = Tree.tokensOf row := by
      have hall : (Lexing.of text).tokens = Tree.tokensOf row ++ after.ahead := hrow.ahead
      rw [hall, hahead, List.append_nil]
    rw [Tree.fullText_node, Tree.fullTextOf, Tree.tokensOf_append, Tree.tokensOf_singleton,
      Tree.tokens, ← htokens]
    exact Lexing.fullText_all text
  have hbroken : (ending text after).log.broken = false := by
    rw [hending]
    rfl
  have hbuild := Log.build_node hbroken hnode hevents
  rw [htext] at hbuild
  exact ⟨behind, hnode, hevents, hbuild⟩

/-- A rule for a whole text that comes to its end has read a row of trees and nothing is left
    ahead. -/
theorem reads_entry {rule : Nat → Grammar.State → Grammar.State} (hrule : IsEntry rule)
    {text : Text} {allowance : Nat} (hends : (rule allowance (start text)).stalled = false) :
    ∃ after row, rule allowance (start text) = ending text after ∧
      Grammar.Reads (start text).start after row ∧ after.ahead = [] := by
  -- Both rules read statements up to the end from some state behind the start of the root.
  have hstatements (state : Grammar.State) (row : List Tree)
      (hrow : Grammar.Reads (start text).start state row)
      (hends : (Grammar.stmtList .endOfFile allowance state).readEnd.stalled = false) :
      ∃ more, Grammar.Reads (start text).start (Grammar.stmtList .endOfFile allowance state) more ∧
        (Grammar.stmtList .endOfFile allowance state).ahead = [] := by
    rcases (Grammar.stmtRules allowance).stmtList .endOfFile state with ⟨more, hmore⟩
    refine ⟨row ++ more, hrow.trans hmore, Grammar.ahead_stmtList ?_ fun tok htok => ?_⟩
    · unfold Grammar.State.readEnd at hends
      split at hends <;> exact hends
    · have hall : (Lexing.of text).tokens = Tree.tokensOf row ++ state.ahead := hrow.ahead
      have hmem : tok ∈ (Lexing.of text).tokens := by
        rw [hall, List.mem_append]
        exact .inr htok
      exact Kind.ne_endOfFile_of_isLexeme (Lexing.isLexeme_of_mem hmem)
  cases hrule with
  | file =>
    rcases Grammar.Accounted.skip (start text).start .openTag with ⟨row, hrow⟩
    rcases hstatements _ row hrow hends with ⟨more, hmore, hahead⟩
    exact ⟨_, more, rfl, hmore, hahead⟩
  | fragment =>
    rcases hstatements _ [] (.refl _) hends with ⟨more, hmore, hahead⟩
    exact ⟨_, more, rfl, hmore, hahead⟩

/-- Whatever a text looks like, when its parse comes to an end its log builds a tree. The log has
    no start without a kind left, and replays to the steps that write the tree down. The tree holds
    the text, and its leaves that are not trivia are the tokens of the text where they stand, of
    which only the last stands for the end. -/
theorem lossless {rule : Nat → Grammar.State → Grammar.State} (hrule : IsEntry rule) (text : Text)
    (allowance : Nat) (hends : (rule allowance (start text)).stalled = false) :
    ∃ root, (rule allowance (start text)).log.build text = .ok ⟨text, root⟩ ∧
      Event.replay (rule allowance (start text)).log.events = .ok root.tree.steps ∧
      Event.unmarked ∉ (rule allowance (start text)).log.events ∧
      root.kind = .sourceFile ∧ root.tree.fullText = text ∧
      root.significant.map Leaf.lexeme = (Lexing.of text).lexemes ∧
      (∀ tok ∈ (Lexing.of text).tokens, tok.kind ≠ .endOfFile) ∧
      (Lexing.of text).last.kind = .endOfFile := by
  rcases reads_entry hrule hends with ⟨after, row, hrun, hrow, hahead⟩
  rcases build_of_reads hrow hahead with ⟨behind, hnode, hevents, hbuild⟩
  have htokens : Tree.tokensOf (row ++ [.token (Lexing.of text).last]) = (Lexing.of text).all := by
    have hall : (Lexing.of text).tokens = Tree.tokensOf row ++ after.ahead := hrow.ahead
    rw [Tree.tokensOf_append, Tree.tokensOf_singleton, Tree.tokens, Lexing.all, hall, hahead,
      List.append_nil]
  -- No leaf is trivia: trivia belong to their tokens.
  have hsignificant : (Node.root .sourceFile (row ++ [.token (Lexing.of text).last])).significant =
      (Node.root .sourceFile (row ++ [.token (Lexing.of text).last])).leaves := by
    refine List.filter_eq_self.mpr fun leaf hleaf => ?_
    have htoken := List.mem_map_of_mem (f := Leaf.token) hleaf
    rw [Node.token_leaves, Node.root, htokens, Lexing.all, List.mem_append,
      List.mem_singleton] at htoken
    rw [Leaf.isTrivia, Leaf.kind]
    rcases htoken with htoken | htoken
    · rw [Kind.isTrivia_of_isLexeme (Lexing.isLexeme_of_mem htoken)]
      rfl
    · rw [htoken, Lexing.kind_last]
      rfl
  refine ⟨_, hrun ▸ hbuild, ?_, ?_, rfl, ?_, ?_, ?_, Lexing.kind_last text⟩
  · have hnil : Event.replay [] = .ok [] := by rw [Event.replay]
    have hreplay := Event.replay_writesNode hnode hnil
    rw [List.nil_append, List.append_nil, List.append_nil] at hreplay
    rw [hrun, hevents, hreplay]
    rfl
  · have hmarked := hnode.marked
    rwa [hrun, hevents]
  · rw [Node.tree, Tree.fullText_node, Tree.fullTextOf]
    exact (congrArg _ htokens).trans (Lexing.fullText_all text)
  · rw [hsignificant, Node.lexemes_leaves, htokens, Lexing.lexemes]
  · exact fun tok htok => Kind.ne_endOfFile_of_isLexeme (Lexing.isLexeme_of_mem htok)

/-- A parse holds the text it was made of, also when it goes on for ever. -/
theorem text_withRule (rule : Nat → Grammar.State → Grammar.State) (text : Text) :
    (withRule rule text).text = text := by
  rw [Parse.text, withRule]
  dsimp only
  rcases hbuild : build rule text with misuse | tree
  · rfl
  · rw [build, Log.build] at hbuild
    split at hbuild
    · exact absurd hbuild (by simp only [reduceCtorEq, not_false_eq_true])
    · rcases bind_eq_ok hbuild with ⟨steps, _, hrun⟩
      exact Builder.text_run hrun

/-- A stored parse that is kept is the one that would be made anew, and nothing has changed just if
    the text has not. -/
theorem update_file (old new : Text) :
    (file old).update (file new) = (file new, !decide (old = new)) := by
  have htext (text : Text) : (file text).text = text := text_withRule _ text
  rw [update, htext, htext]
  by_cases hsame : old = new
  · rw [if_pos hsame, decide_eq_true hsame, hsame, Bool.not_true]
  · rw [if_neg hsame, decide_eq_false hsame, Bool.not_false]

/-- A file that breaks off in the middle still builds its tree. -/
theorem lossless_unfinished_call :
    ∃ root, (Grammar.sourceFile 64 (start "<?php f( ; /*".toList)).log.build
        "<?php f( ; /*".toList = .ok ⟨"<?php f( ; /*".toList, root⟩ ∧
      root.significant.map Leaf.lexeme = (Lexing.of "<?php f( ; /*".toList).lexemes := by
  rcases lossless .file "<?php f( ; /*".toList 64 (by decide +kernel) with
    ⟨root, hbuild, _, _, _, _, hlexemes, _, _⟩
  exact ⟨root, hbuild, hlexemes⟩

end Parse

end PhpAssist

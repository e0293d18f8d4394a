import PhpAssist.Proofs.Leaves
import PhpAssist.Proofs.Resolutions

/-!
# What hoisted operands read

Everything that is hoisted out of a concatenation runs before any of the heredoc is evaluated. An
operand that is evaluated into a new variable keeps its value: the variable is new to the file, so
nothing in the chain assigns it. An operand that stays in the heredoc is read there, behind
everything that is hoisted, also behind what stood to its right; so is the target of an assignment.

## Main definitions

* `Tree.assigned`: The variables in what a tree assigns to.

## Theorems

* `Tree.names_of_subtree`: The names that a node uses are used by everything it is in.
* `ConcatChain.new_variables_keep_values`: Nothing in a chain assigns what is read in place of an
  operand that was evaluated into a new variable.
* `ConcatChain.increment_overtakes`: A variable that is read behind its own increment.
-/

namespace PhpAssist

namespace Tree

variable {tree sub : Tree}

/-- The variables in the first part of a node. -/
def targetNames (tree : Tree) : List Text :=
  tree.childNodes.head?.elim [] fun target => (Names.ofTokens target.significant).taken

/-- The variables in what a tree assigns to, or steps up or down. -/
def assigned (tree : Tree) : List Text :=
  tree.subtrees.flatMap fun sub =>
    match sub.kind with
    | .assignExpr | .postfixExpr => sub.targetNames
    | .prefixExpr => if sub.isEffect then sub.targetNames else []
    | _ => []

/-! ## Names in a tree -/

/-- The names of more tokens are more names. -/
theorem names_subset (h : sub.tokens ⊆ tree.tokens) :
    (Names.ofTokens sub.significant).taken ⊆ (Names.ofTokens tree.significant).taken := by
  intro name hname
  rw [Names.ofTokens, List.mem_flatMap] at hname ⊢
  rcases hname with ⟨tok, htok, hname⟩
  rw [significant, List.mem_filter] at htok
  refine ⟨tok, ?_, hname⟩
  rw [significant, List.mem_filter]
  exact ⟨h htok.1, htok.2⟩

/-- The names that a node uses are used by everything it is in. -/
theorem names_of_subtree (h : sub ∈ tree.subtrees) :
    (Names.ofTokens sub.significant).taken ⊆ (Names.ofTokens tree.significant).taken := by
  rcases tokens_of_subtree tree h with ⟨before, after, htokens⟩
  refine names_subset ?_
  rw [htokens]
  exact List.Subset.trans (List.subset_append_left _ _) (List.subset_append_right _ _)

theorem tokens_of_childNode (h : sub ∈ tree.childNodes) : sub.tokens ⊆ tree.tokens := by
  rcases tree with tok | ⟨kind, children⟩
  · exact absurd h List.not_mem_nil
  · rw [tokens_node]
    exact fun tok htok => List.mem_flatMap.mpr ⟨sub, (List.mem_filter.mp h).1, htok⟩

/-- What a tree assigns it mentions. -/
theorem assigned_subset (tree : Tree) :
    tree.assigned ⊆ (Names.ofTokens tree.significant).taken := by
  intro name hname
  rw [assigned, List.mem_flatMap] at hname
  rcases hname with ⟨sub, hsub, hname⟩
  -- Whatever assigns in it, the target is the first part of a node below.
  have htarget (h : name ∈ sub.targetNames) : name ∈ (Names.ofTokens tree.significant).taken := by
    refine names_of_subtree hsub ?_
    rw [targetNames] at h
    rcases hfirst : sub.childNodes.head? with _ | target
    · rw [hfirst] at h
      exact absurd h List.not_mem_nil
    · rw [hfirst] at h
      exact names_subset (tokens_of_childNode (List.mem_of_head? hfirst)) h
  split at hname
  · exact htarget hname
  · exact htarget hname
  · split at hname
    · exact htarget hname
    · exact absurd hname List.not_mem_nil
  · exact absurd hname List.not_mem_nil

end Tree

namespace ConcatChain

/-- The rewrite of a concatenation in a text without diagnostics keeps the value of every operand
    that it evaluates into a new variable: what stands for the operand in the heredoc reads no
    variable that any operand of the chain assigns or steps up or down. -/
theorem new_variables_keep_values {text : Text} {context : AssistContext} {change : Change}
    (hclean : (Parse.file text).diagnostics = []) (hparse : context.parse = Parse.file text)
    (h : context.apply .concatToHeredoc = .ok change) :
    ∃ rewrite : Rewrite context change, ∀ (i : Nat) (operand : Tree),
      rewrite.call.operands[i]? = some operand → operand.needsVariable = true →
        ∃ slot, rewrite.resolution.slots[i]? = some slot ∧
          ∀ leaf ∈ rewrite.concat.tree.operands, ∀ name ∈ leaf.assigned,
            name ∉ Names.mentioned slot.text := by
  rcases rewrite_of_change h with ⟨rewrite⟩
  refine ⟨rewrite, fun i operand hoperand hneeds => ?_⟩
  rcases Resolution.ofFrom_of_resolve rewrite.resolved with ⟨after, hresolved⟩
  rcases Resolution.slot_of_operand hresolved hoperand with ⟨here, step, hhere, hstep, hslot⟩
  rcases Resolution.text_of_needsVariable hneeds hstep with ⟨name, htext, hname, hfree⟩
  refine ⟨_, hslot, fun leaf hleaf target htarget hmentioned => hfree (hhere ?_)⟩
  rw [htext, Names.mentioned_braced hname, List.mem_singleton] at hmentioned
  rw [← hmentioned]
  -- What an operand assigns is in the file, and so are the names in use.
  have hmember : rewrite.concat ∈ context.parse.root.descendants :=
    rewrite.ancestors_subset hclean hparse List.mem_cons_self
  have hstandalone : Grammar.Standalone rewrite.concat.tree.shape :=
    Parse.standalone_of_expr hclean (hparse ▸ hmember) (by rw [rewrite.concat_of_ancestors.2]; rfl)
  have hsub := (Tree.operands_standalone _ hstandalone leaf hleaf).2
  exact Tree.names_of_subtree (Node.mem_subtrees hmember)
    (Tree.names_of_subtree hsub (Tree.assigned_subset leaf htarget))

/-- A call is evaluated into a new variable before the step up of a variable behind it. -/
theorem new_variables_keep_values_call :
    (Parse.file "<?php $s = f($a) . $a++;".toList).diagnostics = [] ∧
      ∃ change, AssistContext.apply
          ⟨Parse.file "<?php $s = f($a) . $a++;".toList, 17, .default⟩ .concatToHeredoc =
            .ok change ∧
        ∃ rewrite : Rewrite ⟨Parse.file "<?php $s = f($a) . $a++;".toList, 17, .default⟩ change,
          ∀ (i : Nat) (operand : Tree), rewrite.call.operands[i]? = some operand →
            operand.needsVariable = true → ∃ slot, rewrite.resolution.slots[i]? = some slot ∧
              ∀ leaf ∈ rewrite.concat.tree.operands, ∀ name ∈ leaf.assigned,
                name ∉ Names.mentioned slot.text := by
  obtain ⟨hclean, hany⟩ :
      (Parse.file "<?php $s = f($a) . $a++;".toList).diagnostics = [] ∧
      (AssistContext.apply
        ⟨Parse.file "<?php $s = f($a) . $a++;".toList, 17, .default⟩ .concatToHeredoc).toOption.any
        (fun _ => true) = true := by
    decide +kernel
  rcases eq_ok_of_any hany with ⟨change, hchange, _⟩
  exact ⟨hclean, change, hchange, new_variables_keep_values hclean rfl hchange⟩

/-- A variable that stays in the heredoc is read behind a step up of the same variable to its right,
    which is hoisted. -/
theorem increment_overtakes :
    (Parse.file "<?php $s = 'x' . $a . $a++;".toList).diagnostics = [] ∧
      ∃ change, AssistContext.apply
          ⟨Parse.file "<?php $s = 'x' . $a . $a++;".toList, 15, .default⟩ .concatToHeredoc =
            .ok change ∧
        ∃ rewrite : Rewrite
            ⟨Parse.file "<?php $s = 'x' . $a . $a++;".toList, 15, .default⟩ change,
          ∃ early late slot,
            rewrite.concat.tree.operands.tail = [early, late] ∧
            early.trimmed = "$a".toList ∧ late.trimmed = "$a++".toList ∧
            rewrite.resolution.slots.head? = some slot ∧ slot.text = "{$a}".toList ∧
            (∃ hoist ∈ rewrite.resolution.hoists,
              hoist.text = "$newVarPhpExpression2 = $a++;".toList) ∧
            ∃ name ∈ late.assigned, name ∈ Names.mentioned slot.text := by
  -- What the operands are, and what they become.
  obtain ⟨hclean, hany, hoperands, hresolution⟩ :
      (Parse.file "<?php $s = 'x' . $a . $a++;".toList).diagnostics = [] ∧
      (AssistContext.apply ⟨Parse.file "<?php $s = 'x' . $a . $a++;".toList, 15,
        .default⟩ .concatToHeredoc).toOption.any (fun _ => true) = true ∧
      (topmost? ⟨Parse.file "<?php $s = 'x' . $a . $a++;".toList, 15,
        .default⟩).any (fun concat =>
        concat.tree.operands.tail.map Tree.trimmed == ["$a".toList, "$a++".toList] &&
          concat.tree.operands.getLast?.any fun late => late.assigned.contains ['a']) = true ∧
      (topmost? ⟨Parse.file "<?php $s = 'x' . $a . $a++;".toList, 15,
        .default⟩).any (fun concat => (Converter.sprintf.convert concat.tree).toOption.any fun call =>
        (resolve call.operands
            (Names.of (Parse.file "<?php $s = 'x' . $a . $a++;".toList).root)).toOption.any
          fun resolution =>
            (resolution.slots.head?.any fun slot => slot.text == "{$a}".toList) &&
            resolution.hoists.any fun hoist =>
              hoist.text == "$newVarPhpExpression2 = $a++;".toList) = true := by
    decide +kernel
  rcases eq_ok_of_any hany with ⟨change, hchange, _⟩
  rcases rewrite_of_change hchange with ⟨rewrite⟩
  have hconverted : Converter.sprintf.convert rewrite.concat.tree = .ok rewrite.call :=
    rewrite.converted
  rw [rewrite.topmost, Option.any_some, Bool.and_eq_true, beq_iff_eq] at hoperands
  rw [rewrite.topmost, Option.any_some, hconverted, Except.toOption, Option.any_some,
    rewrite.resolved, Except.toOption, Option.any_some, Bool.and_eq_true] at hresolution
  rcases hoperands with ⟨htexts, hlast⟩
  rcases (Option.any_eq_true _ _).mp hlast with ⟨last, hlast, hassigned⟩
  rcases (Option.any_eq_true _ _).mp hresolution.1 with ⟨slot, hslot, htext⟩
  rcases List.any_eq_true.mp hresolution.2 with ⟨hoist, hhoist, hhoistText⟩
  rcases hrow : rewrite.concat.tree.operands with _ | ⟨literal, _ | ⟨early, _ | ⟨late, _ | _⟩⟩⟩
  all_goals
    rw [hrow] at htexts hlast
    simp only [List.tail_nil, List.tail_cons, List.map_nil, List.map_cons, List.cons.injEq,
      reduceCtorEq, and_true, and_false] at htexts
  injection hlast with hlast
  rw [← hlast] at hassigned
  refine ⟨hclean, change, hchange, rewrite, early, late, slot, by rw [hrow]; rfl, htexts.1,
    htexts.2, hslot, beq_iff_eq.mp htext, ⟨hoist, hhoist, beq_iff_eq.mp hhoistText⟩, ['a'],
    List.contains_iff_mem.mp hassigned, ?_⟩
  rw [beq_iff_eq.mp htext]
  decide +kernel

end ConcatChain

end PhpAssist

import PhpAssist.Proofs.ConcatPlan
import PhpAssist.Proofs.Hoists

/-!
# New variables and the variables of a file

A rewrite that makes up variables may not hit one that the file mentions. The names in use are
collected from the tokens: a variable has its name behind its dollar sign, and so has a variable in
a string, with braces around it or without. A name that is made up is none of these.

There is a third way to write a variable in a string, with the brace behind the dollar sign. No name
stands behind the dollar sign there, so a variable that is written in no other way is not in use,
and a rewrite may assign it.

## Main definitions

* `Names.Form`: The ways to write a variable in code and in strings.
* `Names.Mentions`: A token in which a variable is written.

## Theorems

* `Names.mem_ofToken`: A variable that is mentioned is in use, unless its dollar sign stands in
  front of a brace.
* `ConcatChain.new_names_unmentioned`: What is made up is not mentioned.
* `ConcatChain.named_variable_captured`: A variable that a rewrite takes for free.
-/

namespace PhpAssist

open Text

namespace Names

/-- The ways to write a variable: by itself, or in a string as `$name`, as `{$name…}`, and as
    `${name}` or `${name[…]}`. -/
inductive Form where
  | alone
  | simple
  | braced
  | named
  deriving DecidableEq

/-- The tokens in which variables are interpolated. -/
def interpolates (kind : Kind) : Bool := kind == .doubleQuotedString || kind == .heredocString

/-- A token in which a variable is written in a form. -/
inductive Mentions (tok : Token) (name : Text) : Form → Prop
  | alone (hname : isName name = true) (hkind : tok.kind = .variableName)
      (htext : tok.text = '$' :: name) : Mentions tok name .alone
  | simple {before after : Text} (hname : isName name = true)
      (hkind : interpolates tok.kind = true) (htext : tok.text = before ++ '$' :: (name ++ after))
      (hafter : after.head?.any isIdentContinue = false) : Mentions tok name .simple
  | braced {before after : Text} (hname : isName name = true)
      (hkind : interpolates tok.kind = true)
      (htext : tok.text = before ++ '{' :: '$' :: (name ++ after))
      (hafter : after.head?.any isIdentContinue = false) : Mentions tok name .braced
  | named {before after : Text} {c : Char} (hname : isName name = true)
      (hkind : interpolates tok.kind = true)
      (htext : tok.text = before ++ '$' :: '{' :: (name ++ c :: after))
      (hafter : c = '}' ∨ c = '[') : Mentions tok name .named

/-- What the end of a text mentions is mentioned by the text. -/
theorem mentioned_append (before text : Text) : mentioned text ⊆ mentioned (before ++ text) := by
  -- Every character in front adds a name at most.
  have hcons (c : Char) (rest : Text) : mentioned rest ⊆ mentioned (c :: rest) := by
    by_cases hc : c = '$'
    · rw [hc, mentioned]
      split
      · exact List.subset_cons_self _ _
      · exact List.Subset.refl _
    · rw [mentioned]
      · exact List.Subset.refl _
      · exact hc
  induction before with
  | nil => exact List.Subset.refl _
  | cons c before ih => exact List.Subset.trans ih (hcons c _)

/-- A name behind a dollar sign that does not go on is mentioned. -/
theorem mem_mentioned {name after : Text} (hname : isName name = true)
    (hafter : after.head?.any isIdentContinue = false) :
    name ∈ mentioned ('$' :: (name ++ after)) := by
  rw [isName, Bool.and_eq_true] at hname
  have hhead : (name ++ after).head?.any isIdentStart = true := by
    rcases name with _ | ⟨c, name⟩
    · exact absurd hname.1 Bool.false_ne_true
    · exact hname.1
  -- The name is all of the run behind the dollar sign.
  have hrun : (name ++ after).takeWhile isIdentContinue = name := by
    rw [List.takeWhile_append_of_pos fun c hc => List.all_eq_true.mp hname.2 c hc]
    rcases after with _ | ⟨c, after⟩
    · exact List.append_nil name
    · have hc : ¬ isIdentContinue c = true := Bool.eq_false_iff.mp hafter
      rw [List.takeWhile_cons_of_neg hc, List.append_nil]
  rw [mentioned, if_pos hhead, hrun]
  exact List.mem_cons_self

/-- A variable that a token mentions is in use, unless its dollar sign stands in front of a
    brace. -/
theorem mem_ofToken {tok : Token} {name : Text} {form : Form} (h : Mentions tok name form)
    (hform : form ≠ .named) : name ∈ ofToken tok := by
  have hstring (hkind : interpolates tok.kind = true) : ofToken tok = mentioned tok.text := by
    rw [interpolates, Bool.or_eq_true, beq_iff_eq, beq_iff_eq] at hkind
    rw [ofToken]
    rcases hkind with hkind | hkind <;> rw [hkind]
  cases h with
  | alone hname hkind htext =>
    -- The name has no dollar sign of its own.
    rcases name with _ | ⟨c, name⟩
    · exact absurd hname (by decide)
    have hc : c ≠ '$' := by
      rintro rfl
      rw [isName, Bool.and_eq_true] at hname
      exact absurd (show isIdentStart '$' = true from hname.1) (by decide)
    rw [ofToken, hkind, htext]
    dsimp only
    rw [List.dropWhile_cons_of_pos rfl, List.dropWhile_cons_of_neg (by rwa [beq_iff_eq])]
    exact List.mem_singleton_self _
  | simple hname hkind htext hafter =>
    rw [hstring hkind, htext]
    exact mentioned_append _ _ (mem_mentioned hname hafter)
  | @braced before after hname hkind htext hafter =>
    rw [hstring hkind, htext, List.append_cons]
    exact mentioned_append _ _ (mem_mentioned hname hafter)
  | named => exact absurd rfl hform

/-- The same for a whole file. -/
theorem mem_of {root : Node} {tok : Token} {name : Text} {form : Form}
    (htok : tok ∈ root.tree.tokens) (h : Mentions tok name form) (hform : form ≠ .named) :
    name ∈ (Names.of root).taken := by
  have hmem := mem_ofToken h hform
  refine List.mem_flatMap.mpr ⟨tok, List.mem_filter.mpr ⟨htok, ?_⟩, hmem⟩
  -- A token that uses a name is no trivia.
  unfold ofToken at hmem
  split at hmem
  · rename_i hkind
    rw [hkind]
    rfl
  · rename_i hkind
    rw [hkind]
    rfl
  · rename_i hkind
    rw [hkind]
    rfl
  · exact absurd hmem List.not_mem_nil

end Names

namespace ConcatChain

variable {context : AssistContext} {change : Change}

/-- The names that the rewrite of a concatenation hands out are mentioned in the file at most with a
    brace behind the dollar sign, neither by a variable nor by a string in another way. They are the
    names of the new variables: every hoist has one of them, unless it is an assignment that the
    operand is itself. -/
theorem new_names_unmentioned (h : context.apply .concatToHeredoc = .ok change) :
    ∃ (rewrite : Rewrite context change) (handed : List Text) (after : Names),
      Resolution.ofFrom 0 rewrite.call.operands (Names.of context.parse.root) =
          .ok (rewrite.resolution, after) ∧
        after.taken = handed ++ (Names.of context.parse.root).taken ∧
        (∀ hoist ∈ rewrite.resolution.hoists,
          (∃ operand ∈ rewrite.call.operands, Hoist.Own operand hoist) ∨ hoist.name ∈ handed) ∧
        ∀ name ∈ handed, ∀ tok ∈ context.parse.root.tree.tokens, ∀ form,
          Names.Mentions tok name form → form = .named := by
  rcases rewrite_of_change h with ⟨rewrite⟩
  rcases Resolution.ofFrom_of_resolve rewrite.resolved with ⟨after, hresolved⟩
  rcases Resolution.taken_of_ofFrom hresolved with ⟨handed, htaken, hnew, hhoists⟩
  refine ⟨rewrite, handed, after, hresolved, htaken, hhoists, ?_⟩
  -- A name in use is not handed out, and what is mentioned in another form is in use.
  intro name hname tok htok form hmentions
  by_contra hform
  exact hnew name hname (Names.mem_of htok hmentions hform)

/-- Two candidates for the name of a new variable are mentioned, one of them in a string only. -/
theorem new_names_unmentioned_candidates :
    ∃ change, AssistContext.apply
        ⟨Parse.file "<?php $newVarFnCall1 = \"\x7b$newVarFnCall1_2->p\x7d\" . f();".toList, 50,
          .default⟩ .concatToHeredoc = .ok change ∧
      ∃ (rewrite : Rewrite ⟨Parse.file
            "<?php $newVarFnCall1 = \"\x7b$newVarFnCall1_2->p\x7d\" . f();".toList, 50,
            .default⟩ change) (handed : List Text),
        (∀ hoist ∈ rewrite.resolution.hoists,
          (∃ operand ∈ rewrite.call.operands, Hoist.Own operand hoist) ∨ hoist.name ∈ handed) ∧
        ∀ name ∈ handed, ∀ tok ∈ (Parse.file
            "<?php $newVarFnCall1 = \"\x7b$newVarFnCall1_2->p\x7d\" . f();".toList).root.tree.tokens,
          ∀ form, Names.Mentions tok name form → form = .named := by
  have hany : (AssistContext.apply
      ⟨Parse.file "<?php $newVarFnCall1 = \"\x7b$newVarFnCall1_2->p\x7d\" . f();".toList, 50,
        .default⟩ .concatToHeredoc).toOption.any (fun _ => true) = true := by
    decide +kernel
  rcases eq_ok_of_any hany with ⟨change, hchange, _⟩
  rcases new_names_unmentioned hchange with ⟨rewrite, handed, _, _, _, hhoists, hunmentioned⟩
  exact ⟨change, hchange, rewrite, handed, hhoists, hunmentioned⟩

/-- A variable that the file mentions with a brace behind the dollar sign only, and that the rewrite
    assigns. -/
theorem named_variable_captured :
    (Parse.file "<?php $x = \"$\x7bnewVarFnCall1\x7d\" . f();".toList).diagnostics = [] ∧
      ∃ change, AssistContext.apply
          ⟨Parse.file "<?php $x = \"$\x7bnewVarFnCall1\x7d\" . f();".toList, 30, .default⟩
            .concatToHeredoc = .ok change ∧
        ∃ rewrite : Rewrite
            ⟨Parse.file "<?php $x = \"$\x7bnewVarFnCall1\x7d\" . f();".toList, 30, .default⟩ change,
          ∃ hoist ∈ rewrite.resolution.hoists,
            hoist.text = "$newVarFnCall1 = f();".toList ∧
            ∃ tok ∈ (Parse.file
                "<?php $x = \"$\x7bnewVarFnCall1\x7d\" . f();".toList).root.tree.tokens,
              Names.Mentions tok hoist.name .named := by
  generalize htext : "<?php $x = \"$\x7bnewVarFnCall1\x7d\" . f();".toList = text
  obtain ⟨hclean, hany, hresolution, htoken⟩ :
      (Parse.file text).diagnostics = [] ∧
      (AssistContext.apply ⟨Parse.file text, 30, .default⟩
        .concatToHeredoc).toOption.any (fun _ => true) = true ∧
      (topmost? ⟨Parse.file text, 30, .default⟩).any (fun concat =>
        (Converter.sprintf.convert concat.tree).toOption.any fun call =>
        (resolve call.operands (Names.of (Parse.file text).root)).toOption.any fun resolution =>
          resolution.hoists.any fun hoist =>
            hoist == ⟨"newVarFnCall1".toList, "$newVarFnCall1 = f();".toList⟩) = true ∧
      (Parse.file text).root.tree.tokens.any (fun tok =>
        tok.kind == .doubleQuotedString &&
        tok.text == "\"$\x7bnewVarFnCall1\x7d\"".toList) = true := by
    rw [← htext]
    decide +kernel
  rcases eq_ok_of_any hany with ⟨change, hchange, _⟩
  rcases rewrite_of_change hchange with ⟨rewrite⟩
  have hconverted : Converter.sprintf.convert rewrite.concat.tree = .ok rewrite.call :=
    rewrite.converted
  rw [rewrite.topmost, Option.any_some, hconverted, Except.toOption, Option.any_some,
    rewrite.resolved, Except.toOption, Option.any_some] at hresolution
  rcases List.any_eq_true.mp hresolution with ⟨hoist, hhoist, heq⟩
  rcases List.any_eq_true.mp htoken with ⟨tok, htok, hspelled⟩
  rw [beq_iff_eq] at heq
  rw [Bool.and_eq_true, beq_iff_eq, beq_iff_eq] at hspelled
  refine ⟨hclean, change, hchange, rewrite, hoist, hhoist, by rw [heq], tok, htok, ?_⟩
  rw [heq]
  exact .named (by decide) (by rw [hspelled.1]; rfl)
    (hspelled.2.trans (show _ = ['"'] ++ _ from rfl)) (.inl rfl)

end ConcatChain

end PhpAssist

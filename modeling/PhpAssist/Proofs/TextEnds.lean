import PhpAssist.Literal.Join

/-!
# The end of a text

What the end of a text is, asked of a text that is written as something with an end put to it: the
run of characters of one sort at the end, whether a backslash there escapes what comes next, and the
variable that stands there.

## Theorems

* `Text.endsInEscape_concat`: How one more character changes whether a text ends in an escape.
* `Text.endsInEscape_append`: A front that does not end in an escape does not matter.
* `Text.takeEndWhile_append`, `Text.dropEndWhile_append`: The run at the end of a text.
* `Join.nameAtEnd?_append`, `Join.nameAtEnd?_eq_some`: The variable at the end of a text.
-/

namespace PhpAssist

namespace Text

theorem takeEndWhile_concat (p : Char → Bool) (text : Text) (c : Char) :
    (text ++ [c]).takeEndWhile p = if p c then text.takeEndWhile p ++ [c] else [] := by
  rw [takeEndWhile, List.reverse_append, List.reverse_singleton, List.singleton_append,
    List.takeWhile_cons]
  by_cases hc : p c = true
  · rw [if_pos hc, if_pos hc, List.reverse_cons, takeEndWhile]
  · rw [if_neg hc, if_neg hc, List.reverse_nil]

/-- One more backslash turns an escape into none and none into one, and any other character is no
    escape. -/
theorem endsInEscape_concat (text : Text) (c : Char) :
    endsInEscape (text ++ [c]) = if c = '\\' then !endsInEscape text else false := by
  rw [endsInEscape, takeEndWhile_concat]
  by_cases hc : c = '\\'
  · rw [if_pos (beq_iff_eq.mpr hc), if_pos hc, List.length_append, List.length_singleton,
      endsInEscape]
    -- One more backslash turns the parity.
    rcases Nat.mod_two_eq_zero_or_one (text.takeEndWhile (· == '\\')).length with heven | hodd
    · rw [Nat.add_mod, heven]
      rfl
    · rw [Nat.add_mod, hodd]
      rfl
  · rw [if_neg (fun h => hc (beq_iff_eq.mp h)), if_neg hc]
    rfl

@[simp] theorem endsInEscape_nil : endsInEscape [] = false := rfl

theorem endsInEscape_of_ne {text : Text} {c : Char} (h : c ≠ '\\') :
    endsInEscape (text ++ [c]) = false := by
  rw [endsInEscape_concat, if_neg h]

/-- Whether a text ends in an escape depends on its front only by whether the front does. -/
theorem endsInEscape_congr {front other : Text} (h : endsInEscape front = endsInEscape other)
    (text : Text) : endsInEscape (front ++ text) = endsInEscape (other ++ text) := by
  induction text generalizing front other with
  | nil =>
    rw [List.append_nil, List.append_nil]
    exact h
  | cons c text ih =>
    rw [List.append_cons front, List.append_cons other]
    refine ih ?_
    rw [endsInEscape_concat, endsInEscape_concat, h]

theorem endsInEscape_append {front : Text} (h : endsInEscape front = false) (text : Text) :
    endsInEscape (front ++ text) = endsInEscape text :=
  endsInEscape_congr (h.trans endsInEscape_nil.symm) text

/-- A run at the end of a text that comes behind a character of another sort is all of the run. -/
theorem takeEndWhile_append {p : Char → Bool} {front run : Text} {c : Char} (hc : p c = false)
    (hrun : run.all p = true) : (front ++ c :: run).takeEndWhile p = run := by
  rw [takeEndWhile, List.reverse_append, List.reverse_cons, List.append_assoc,
    List.takeWhile_append_of_pos]
  · rw [List.singleton_append, List.takeWhile_cons, hc]
    simp only [Bool.false_eq_true, if_false, List.append_nil, List.reverse_reverse]
  · intro it hit
    exact List.all_eq_true.mp hrun it (List.mem_reverse.mp hit)

theorem dropEndWhile_append {p : Char → Bool} {front run : Text} {c : Char} (hc : p c = false)
    (hrun : run.all p = true) : (front ++ c :: run).dropEndWhile p = front ++ [c] := by
  rw [dropEndWhile, List.reverse_append, List.reverse_cons, List.append_assoc,
    List.dropWhile_append_of_pos]
  · rw [List.singleton_append, List.dropWhile_cons, hc]
    simp only [Bool.false_eq_true, if_false, List.reverse_cons, List.reverse_reverse]
  · intro it hit
    exact List.all_eq_true.mp hrun it (List.mem_reverse.mp hit)

/-- A text is what stands before the run at its end and the run. -/
theorem dropEndWhile_append_takeEndWhile (p : Char → Bool) (text : Text) :
    text.dropEndWhile p ++ text.takeEndWhile p = text := by
  rw [dropEndWhile, takeEndWhile, ← List.reverse_append, List.takeWhile_append_dropWhile,
    List.reverse_reverse]

theorem all_takeEndWhile (p : Char → Bool) (text : Text) : (text.takeEndWhile p).all p = true := by
  rw [takeEndWhile, List.all_reverse]
  exact List.all_takeWhile

theorem beforeEnd?_append (front tail : Text) : beforeEnd? tail (front ++ tail) = some front := by
  have hprefix : tail.reverse.isPrefixOf (front ++ tail).reverse = true := by
    rw [List.isPrefixOf_iff_prefix, List.reverse_append]
    exact List.prefix_append _ _
  rw [beforeEnd?, if_pos hprefix, List.length_append, Nat.add_sub_cancel,
    List.take_append_of_le_length (Nat.le_refl _), List.take_length]

theorem beforeEnd?_eq_some {front tail text : Text} (h : beforeEnd? tail text = some front) :
    text = front ++ tail := by
  rw [beforeEnd?] at h
  split at h
  · rename_i hprefix
    rw [List.isPrefixOf_iff_prefix] at hprefix
    rcases List.reverse_prefix.mp hprefix with ⟨before, rfl⟩
    rw [List.length_append, Nat.add_sub_cancel,
      List.take_append_of_le_length (Nat.le_refl _), List.take_length, Option.some.injEq] at h
    rw [h]
  · exact absurd h (by simp only [reduceCtorEq, not_false_eq_true])

theorem eq_concat_of_getLast? {text : Text} {c : Char} (h : text.getLast? = some c) :
    text = text.dropLast ++ [c] := by
  rcases List.getLast?_eq_some_iff.mp h with ⟨front, rfl⟩
  rw [List.dropLast_concat]

/-- A text that can be the name of a variable. -/
def isName (name : Text) : Bool := name.head?.any isIdentStart && name.all isIdentContinue

theorem isIdentContinue_of_start {c : Char} (h : isIdentStart c = true) :
    isIdentContinue c = true := by
  rw [isIdentContinue, h, Bool.true_or]

theorem isName_singleton {c : Char} (h : isIdentStart c = true) : isName [c] = true := by
  rw [isName, List.head?_singleton, Option.any_some, h, List.all_cons, List.all_nil,
    isIdentContinue_of_start h]
  rfl

theorem isName_append {name more : Text} (h : isName name = true)
    (hmore : more.all isIdentContinue = true) : isName (name ++ more) = true := by
  rw [isName, Bool.and_eq_true] at h ⊢
  rcases name with _ | ⟨first, rest⟩
  · exact absurd h.1 Bool.false_ne_true
  · rw [List.all_append, h.2, hmore]
    exact ⟨h.1, rfl⟩

end Text

namespace Join

open Text

variable {text before name whole arrow property : Text}

/-- The two spellings of an arrow. -/
def arrows : List Text := [['-', '>'], ['?', '-', '>']]

/-- A variable at the end of a text is a name behind a dollar sign that is not escaped. -/
theorem nameAtEnd?_append (hname : isName name = true) (hbefore : endsInEscape before = false) :
    nameAtEnd? (before ++ '$' :: name) = some (before, '$' :: name) := by
  rw [isName, Bool.and_eq_true] at hname
  rw [nameAtEnd?, takeEndWhile_append (by decide) hname.2,
    dropEndWhile_append (by decide) hname.2, hname.1,
    List.getLast?_concat, List.dropLast_concat, hbefore]
  rfl

theorem nameAtEnd?_eq_some (h : nameAtEnd? text = some (before, whole)) :
    ∃ name, whole = '$' :: name ∧ text = before ++ '$' :: name ∧ isName name = true ∧
      endsInEscape before = false := by
  rw [nameAtEnd?] at h
  split at h
  · rename_i hname
    rw [Bool.and_eq_true, Bool.and_eq_true, beq_iff_eq, Bool.not_eq_true'] at hname
    rw [Option.some.injEq, Prod.mk.injEq] at h
    -- The name is the run at the end, and the dollar sign is the last character in front of it.
    refine ⟨_, h.2.symm, ?_, ?_, h.1 ▸ hname.2⟩
    · rw [← h.1, List.append_cons, ← eq_concat_of_getLast? hname.1.2,
        dropEndWhile_append_takeEndWhile]
    · rw [isName, hname.1.1, all_takeEndWhile, Bool.and_self]
  · exact absurd h (by simp only [reduceCtorEq, not_false_eq_true])

/-- A variable with a property at the end of a text. -/
theorem propertyAtEnd?_append (hname : isName name = true) (hbefore : endsInEscape before = false)
    (harrow : arrow ∈ arrows) (hne : property ≠ [])
    (hproperty : property.all isIdentContinue = true) :
    propertyAtEnd? (before ++ '$' :: (name ++ (arrow ++ property))) =
      some (before, '$' :: (name ++ (arrow ++ property))) := by
  have hsplit : before ++ '$' :: (name ++ (arrow ++ property)) =
      (before ++ '$' :: name) ++ arrow ++ property := by
    simp only [List.append_assoc, List.cons_append]
  -- name) :: A question mark ahead of the arrow would belong to it.
  have hlast : (before ++ '$' :: name).getLast? ≠ some '?' := by
    rw [isName, Bool.and_eq_true] at hname
    rcases List.eq_nil_or_concat name with rfl | ⟨front, c, rfl⟩
    · exact absurd hname.1 Bool.false_ne_true
    · rw [List.concat_eq_append, ← List.cons_append, ← List.append_assoc, List.getLast?_concat]
      intro hc
      have hlast := List.all_eq_true.mp hname.2 c (by simp only [List.concat_eq_append,
        List.mem_append, List.mem_singleton, or_true])
      rw [Option.some.inj hc] at hlast
      exact absurd hlast (by decide)
  -- Both arrows end in a character that cannot stand in a name.
  have hstem : ∃ stem, arrow = stem ++ ['>'] := by
    simp only [arrows, List.mem_cons, List.not_mem_nil, or_false] at harrow
    rcases harrow with rfl | rfl
    · exact ⟨['-'], rfl⟩
    · exact ⟨['?', '-'], rfl⟩
  have harrowAtEnd : arrowAtEnd? (before ++ '$' :: name ++ arrow) =
      some (before ++ '$' :: name, arrow) := by
    simp only [arrows, List.mem_cons, List.not_mem_nil, or_false] at harrow
    rcases harrow with rfl | rfl
    · have hnone : beforeEnd? ['?', '-', '>'] (before ++ '$' :: name ++ ['-', '>']) = none := by
        rcases hfound : beforeEnd? ['?', '-', '>'] (before ++ '$' :: name ++ ['-', '>']) with
          _ | found
        · rfl
        · have heq := beforeEnd?_eq_some hfound
          rw [List.append_cons found, List.append_left_inj] at heq
          rw [heq, List.getLast?_concat] at hlast
          exact absurd rfl hlast
      rw [arrowAtEnd?, hnone, beforeEnd?_append]
      rfl
    · rw [arrowAtEnd?, beforeEnd?_append]
  rcases hstem with ⟨stem, hstem⟩
  have hrun : before ++ '$' :: name ++ arrow ++ property =
      (before ++ '$' :: name ++ stem) ++ '>' :: property := by
    rw [hstem]
    simp only [List.append_assoc, List.singleton_append]
  have htake : (before ++ '$' :: name ++ arrow ++ property).takeEndWhile isIdentContinue =
      property := by
    rw [hrun, takeEndWhile_append (by decide) hproperty]
  have hdrop : (before ++ '$' :: name ++ arrow ++ property).dropEndWhile isIdentContinue =
      before ++ '$' :: name ++ arrow := by
    rw [hrun, dropEndWhile_append (by decide) hproperty, hstem, List.append_assoc]
  rw [hsplit, propertyAtEnd?, htake, hdrop, if_neg (by rw [List.isEmpty_iff]; exact hne),
    harrowAtEnd]
  simp only [nameAtEnd?_append hname hbefore, Option.map_some, List.cons_append, List.append_assoc]

theorem arrowAtEnd?_eq_some {object arrow rest : Text}
    (h : arrowAtEnd? rest = some (object, arrow)) :
    rest = object ++ arrow ∧ arrow ∈ arrows := by
  rw [arrowAtEnd?] at h
  split at h
  · rename_i hnullsafe
    rw [Option.some.injEq, Prod.mk.injEq] at h
    rw [← h.1, ← h.2]
    exact ⟨beforeEnd?_eq_some hnullsafe, by decide⟩
  · rcases Option.map_eq_some_iff.mp h with ⟨found, hfound, heq⟩
    rw [Prod.mk.injEq] at heq
    rw [← heq.1, ← heq.2]
    exact ⟨beforeEnd?_eq_some hfound, by decide⟩

/-- A property at the end is a variable, an arrow and a name, with no escape in front of them. -/
theorem propertyAtEnd?_eq_some (h : propertyAtEnd? text = some (before, whole)) :
    ∃ name arrow, whole = '$' :: (name ++ (arrow ++ text.takeEndWhile isIdentContinue)) ∧
      text = before ++ whole ∧ isName name = true ∧ endsInEscape before = false ∧
      arrow ∈ arrows ∧ text.takeEndWhile isIdentContinue ≠ [] := by
  rw [propertyAtEnd?] at h
  split at h
  · exact absurd h (by simp only [reduceCtorEq, not_false_eq_true])
  rename_i hproperty
  split at h
  · exact absurd h (by simp only [reduceCtorEq, not_false_eq_true])
  rename_i object arrow hobject
  rcases Option.map_eq_some_iff.mp h with ⟨⟨front, name⟩, hname, heq⟩
  rw [Prod.mk.injEq] at heq
  -- Property, arrow and variable, from the end to the front.
  rcases nameAtEnd?_eq_some hname with ⟨name, rfl, hobject', hisName, hfront⟩
  rcases arrowAtEnd?_eq_some hobject with ⟨hrest, harrow⟩
  refine ⟨name, arrow, ?_, ?_, hisName, heq.1 ▸ hfront, harrow,
    fun hnil => hproperty (List.isEmpty_iff.mpr hnil)⟩
  · rw [← heq.2, List.cons_append, List.cons_append, List.append_assoc]
  · rw [← heq.1, ← heq.2, ← List.append_assoc, ← List.append_assoc, ← hobject', ← hrest,
      dropEndWhile_append_takeEndWhile]

/-- A character of a name goes on with a variable. -/
theorem extendsVariable_cons {c : Char} {rest : Text} (h : isIdentContinue c = true) :
    extendsVariable (c :: rest) = true := by
  unfold extendsVariable
  split
  · rfl
  · rfl
  · rfl
  · rename_i heq
    injection heq with hhead
    rw [← hhead, h]
  · rename_i heq
    exact absurd heq (List.cons_ne_nil _ _)

end Join

end PhpAssist

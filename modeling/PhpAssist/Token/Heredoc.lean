import PhpAssist.Token.Cut

/-!
# Heredocs and nowdocs

A heredoc opens with `<<<`, a label and the end of the line. It closes at the first line that
starts, after blanks, with the label, provided that no character of a name follows. The label may
stand in quotes; single quotes make it a nowdoc.

What looks like an opening but is not one is a shift operator, so reading the opening may fail
without an error. A heredoc without a closing line runs to the end of the text.

## Main definitions

* `Heredoc.Opening`: What an opening line says.
* `Heredoc.opening?`: Reads an opening line.
* `Heredoc.closing?`: The part of a line that closes a heredoc.
* `Heredoc.body`: Takes lines up to the closing label.
* `Heredoc.scan?`: Takes a whole heredoc.

## Theorems

* `Heredoc.splits_body`, `Heredoc.splits_scan?`: The scanners split the text.
-/

namespace PhpAssist

namespace Text

/-- What follows `head` in a text that starts with it. -/
def after? : Text → Text → Option Text
  | [], text => some text
  | _ :: _, [] => none
  | c :: head, d :: text => if c = d then after? head text else none

theorem after?_eq_some {head text rest : Text} (h : after? head text = some rest) :
    text = head ++ rest := by
  induction head generalizing text with
  | nil => exact Option.some.inj h
  | cons c head ih =>
    cases text with
    | nil => exact absurd h (by simp only [after?, reduceCtorEq, not_false_eq_true])
    | cons d text =>
      by_cases hcd : c = d
      · subst hcd
        rw [after?, if_pos rfl] at h
        rw [ih h, List.cons_append]
      · rw [after?, if_neg hcd] at h
        exact absurd h (by simp only [reduceCtorEq, not_false_eq_true])

theorem flatten_rawLines (text : Text) : (rawLines text).flatten = text := by
  fun_induction rawLines text with
  | case1 => rfl
  | case2 rest ih => rw [List.flatten_cons, ih, List.singleton_append]
  | case3 c rest _ h ih => rw [h] at ih; rw [← ih]; rfl
  | case4 c rest _ line more h ih => rw [h] at ih; rw [← ih]; rfl

end Text

namespace Heredoc

/-- What an opening line says: the label, whether it makes a nowdoc, and the cut after the end of
    the line. -/
structure Opening where
  label : Text
  isNowdoc : Bool
  cut : Cut

/-- The longest name at the start of a text, or nothing where none starts. -/
def label : Text → Cut
  | [] => ⟨[], [], true⟩
  | c :: rest =>
    if Text.isIdentStart c then (Cut.run Text.isIdentContinue rest).cons c
    else ⟨[], c :: rest, true⟩

/-- Reads the end of a line, of either kind. -/
def lineEnd? : Text → Option Cut
  | '\n' :: rest => some ⟨['\n'], rest, true⟩
  | '\r' :: '\n' :: rest => some ⟨['\r', '\n'], rest, true⟩
  | _ => none

/-- Reads the label and, when it stands in quotes, the quotes around it. -/
def quotedLabel? : Text → Option (Text × Bool × Cut)
  | [] => none
  | c :: rest =>
    if c = '\'' ∨ c = '"' then
      let name := label rest
      match name.rest with
      | d :: after =>
        if name.taken ≠ [] ∧ d = c then
          some (name.taken, c == '\'', ⟨c :: name.taken ++ [d], after, true⟩)
        else none
      | [] => none
    else
      let name := label (c :: rest)
      if name.taken ≠ [] then some (name.taken, false, name) else none

/-- Reads an opening line from its `<<<` to the end of the line. -/
def opening? (text : Text) : Option Opening :=
  match text with
  | '<' :: '<' :: '<' :: rest =>
    let blanks := Cut.run Text.isBlank rest
    match quotedLabel? blanks.rest with
    | none => none
    | some (name, isNowdoc, cut) =>
      match lineEnd? cut.rest with
      | none => none
      | some newline =>
        some ⟨name, isNowdoc,
          ((newline.prepend cut.taken).prepend blanks.taken).prepend ['<', '<', '<']⟩
  | _ => none

/-- The part of a line up to and including a closing label, and what follows it. -/
def closing? (label line : Text) : Option Cut :=
  let blanks := Cut.run Text.isBlank line
  match Text.after? label blanks.rest with
  | none => none
  | some rest =>
    if rest.head?.any Text.isIdentContinue then none
    else some ⟨blanks.taken ++ label, rest, true⟩

/-- Takes lines up to and including the closing label. -/
def body (label : Text) : List Text → Cut
  | [] => ⟨[], [], false⟩
  | line :: more =>
    match closing? label line with
    | some cut => { cut with rest := cut.rest ++ more.flatten }
    | none => (body label more).prepend line

/-- Takes a whole heredoc; `none` when no opening line starts here. The flag tells a nowdoc. -/
def scan? (text : Text) : Option (Bool × Cut) :=
  (opening? text).map fun opening =>
    (opening.isNowdoc,
      (body opening.label (Text.rawLines opening.cut.rest)).prepend opening.cut.taken)

theorem splits_label (text : Text) : (label text).Splits text := by
  cases text with
  | nil => rfl
  | cons c rest =>
    by_cases h : Text.isIdentStart c
    · rw [label, if_pos h]
      exact (Cut.splits_run Text.isIdentContinue rest).cons c
    · rw [label, if_neg h]
      rfl

theorem splits_lineEnd? {text : Text} {cut : Cut} (h : lineEnd? text = some cut) :
    cut.Splits text := by
  unfold lineEnd? at h
  split at h
  · rw [← Option.some.inj h]; rfl
  · rw [← Option.some.inj h]; rfl
  · exact absurd h (by simp only [reduceCtorEq, not_false_eq_true])

theorem splits_quotedLabel? {text name : Text} {isNowdoc : Bool} {cut : Cut}
    (h : quotedLabel? text = some (name, isNowdoc, cut)) : cut.Splits text := by
  unfold quotedLabel? at h
  split at h
  · exact absurd h (by simp only [reduceCtorEq, not_false_eq_true])
  · rename_i c rest
    split at h
    · have hname := splits_label rest
      dsimp only at h
      split at h
      · rename_i d after hd
        split at h
        · injection h with h
          injection h with _ h
          injection h with _ h
          rw [← h]
          have hcons := hname.cons c
          rw [Cut.Splits, Cut.cons, hd] at hcons
          simpa only [Cut.Splits, List.cons_append, List.append_assoc, List.nil_append] using hcons
        · exact absurd h (by simp only [reduceCtorEq, not_false_eq_true])
      · exact absurd h (by simp only [reduceCtorEq, not_false_eq_true])
    · dsimp only at h
      split at h
      · injection h with h
        injection h with _ h
        injection h with _ h
        rw [← h]
        exact splits_label (c :: rest)
      · exact absurd h (by simp only [reduceCtorEq, not_false_eq_true])

theorem splits_opening? {text : Text} {opening : Opening} (h : opening? text = some opening) :
    opening.cut.Splits text := by
  unfold opening? at h
  split at h
  · rename_i rest
    dsimp only at h
    split at h
    · exact absurd h (by simp only [reduceCtorEq, not_false_eq_true])
    · rename_i name isNowdoc cut hcut
      split at h
      · exact absurd h (by simp only [reduceCtorEq, not_false_eq_true])
      · rename_i newline hnewline
        rw [← Option.some.inj h]
        have hline := (splits_lineEnd? hnewline).prepend cut.taken
        rw [show cut.taken ++ cut.rest = _ from splits_quotedLabel? hcut] at hline
        have hall := hline.prepend (Cut.run Text.isBlank rest).taken
        rw [show _ ++ _ = rest from Cut.splits_run Text.isBlank rest] at hall
        exact hall.prepend ['<', '<', '<']
  · exact absurd h (by simp only [reduceCtorEq, not_false_eq_true])

/-- A scan that found an opening took at least the opening. -/
theorem taken_opening?_ne_nil {text : Text} {opening : Opening}
    (h : opening? text = some opening) : opening.cut.taken ≠ [] := by
  unfold opening? at h
  split at h
  · dsimp only at h
    split at h
    · exact absurd h (by simp only [reduceCtorEq, not_false_eq_true])
    · split at h
      · exact absurd h (by simp only [reduceCtorEq, not_false_eq_true])
      · rw [← Option.some.inj h]
        simp only [Cut.prepend, List.cons_append, ne_eq, reduceCtorEq, not_false_eq_true]
  · exact absurd h (by simp only [reduceCtorEq, not_false_eq_true])

theorem splits_closing? {label line : Text} {cut : Cut} (h : closing? label line = some cut) :
    cut.Splits line := by
  unfold closing? at h
  dsimp only at h
  split at h
  · exact absurd h (by simp only [reduceCtorEq, not_false_eq_true])
  · rename_i rest hrest
    split at h
    · exact absurd h (by simp only [reduceCtorEq, not_false_eq_true])
    · rw [← Option.some.inj h]
      have hline := Cut.splits_run Text.isBlank line
      rw [Cut.Splits, Text.after?_eq_some hrest] at hline
      rw [Cut.Splits, List.append_assoc]
      exact hline

theorem splits_body (label : Text) (lines : List Text) :
    (body label lines).Splits lines.flatten := by
  induction lines with
  | nil => rfl
  | cons line more ih =>
    rw [body]
    split
    · rename_i cut hcut
      rw [Cut.Splits, List.flatten_cons, ← List.append_assoc]
      rw [show cut.taken ++ cut.rest = line from splits_closing? hcut]
    · exact ih.prepend line

theorem splits_scan? {text : Text} {isNowdoc : Bool} {cut : Cut}
    (h : scan? text = some (isNowdoc, cut)) : cut.Splits text := by
  obtain ⟨opening, hopening, heq⟩ := Option.map_eq_some_iff.1 h
  injection heq with _ heq
  rw [← heq]
  have hbody := splits_body opening.label (Text.rawLines opening.cut.rest)
  rw [Text.flatten_rawLines] at hbody
  have hall := hbody.prepend opening.cut.taken
  rwa [show _ ++ _ = text from splits_opening? hopening] at hall

theorem taken_scan?_ne_nil {text : Text} {isNowdoc : Bool} {cut : Cut}
    (h : scan? text = some (isNowdoc, cut)) : cut.taken ≠ [] := by
  obtain ⟨opening, hopening, heq⟩ := Option.map_eq_some_iff.1 h
  injection heq with _ heq
  rw [← heq]
  simp only [Cut.prepend, ne_eq, List.append_eq_nil_iff, not_and]
  exact fun h => absurd h (taken_opening?_ne_nil hopening)

end Heredoc

end PhpAssist

import PhpAssist.Proofs.Following

/-!
# Where a heredoc begins and ends

A heredoc is told from a shift operator by its opening line, and it ends at its label. Both can be
described without the scanners: what an opening line consists of, and which lines come before the
label. Described like this it is plain that an opening line is one whatever comes behind it, and
that a heredoc ends where it does whatever comes behind its label, as long as that is no character
of a name.

## Main definitions

* `Heredoc.IsLabel`, `Heredoc.Opens`: Labels and opening lines.
* `Heredoc.Breaks`: Texts that no opening line runs into.
* `Heredoc.Closes`: The lines up to the label that closes a heredoc.

## Theorems

* `Heredoc.opening?_eq_some_iff`: What the scanner takes for an opening line.
* `Heredoc.body_eq_iff`: Where the scanner ends a heredoc.
* `Heredoc.scan?_retail`, `Heredoc.opening?_retail`: A heredoc, and what is none, in front of
  another text.
-/

namespace PhpAssist

open Text

namespace Heredoc

/-- A label is a name. -/
def IsLabel (label : Text) : Prop :=
  ∃ c more, label = c :: more ∧ isIdentStart c = true ∧ ∀ d ∈ more, isIdentContinue d = true

/-- A label with quotes around it or not. Single quotes make a nowdoc. -/
inductive IsQuoted : Text → Text → Bool → Prop
  | bare {label : Text} (hlabel : IsLabel label) : IsQuoted label label false
  | quoted {label : Text} {mark : Char} (hlabel : IsLabel label)
      (hmark : mark = '\'' ∨ mark = '"') :
      IsQuoted (mark :: label ++ [mark]) label (mark == '\'')

/-- The end of a line. -/
def IsLineEnd (text : Text) : Prop := text = ['\n'] ∨ text = ['\r', '\n']

/-- A text is an opening line with a label. -/
inductive Opens : Text → Text → Bool → Prop
  | mk {blanks quoted label newline : Text} {isNowdoc : Bool}
      (hblanks : ∀ c ∈ blanks, isBlank c = true) (hquoted : IsQuoted quoted label isNowdoc)
      (hnewline : IsLineEnd newline) :
      Opens (['<', '<', '<'] ++ blanks ++ quoted ++ newline) label isNowdoc

/-- The label of an opening line is a name. -/
theorem Opens.isLabel {line label : Text} {isNowdoc : Bool} (h : Opens line label isNowdoc) :
    IsLabel label := by
  cases h with
  | mk _ hquoted _ => cases hquoted <;> assumption

/-- No opening line that begins before a text goes on in it. -/
def Breaks (text : Text) : Prop :=
  ∀ front back rest label isNowdoc, text = back ++ rest → front ≠ [] → back ≠ [] →
    ¬ Opens (front ++ back) label isNowdoc

/-- The characters of an opening line before its end. -/
def isOpeningChar (c : Char) : Bool :=
  c == '<' || isBlank c || c == '\'' || c == '"' || isIdentContinue c

/-- A character of a line break. -/
def isLineBreak (c : Char) : Bool := c == '\n' || c == '\r'

/-- The lines of a heredoc up to its label, and what comes behind the label. -/
inductive Closes (label : Text) : Text → Text → Prop
  | here {blanks rest : Text} (hblanks : ∀ c ∈ blanks, isBlank c = true)
      (hrest : rest.head?.any isIdentContinue = false) : Closes label (blanks ++ label) rest
  | line {line taken rest : Text} (hline : '\n' ∉ line)
      (hopen : closing? label (line ++ ['\n']) = none) (hmore : Closes label taken rest) :
      Closes label (line ++ '\n' :: taken) rest

theorem isBlank_of_isIdentStart {c : Char} (h : isIdentStart c = true) : isBlank c = false := by
  rw [isBlank, Bool.or_eq_false_iff, beq_eq_false_iff_ne, beq_eq_false_iff_ne]
  refine ⟨?_, ?_⟩
  all_goals
    rintro rfl
    exact absurd h (by decide)

/-- A character of a name is none that cannot stand in a name. -/
theorem ne_of_isIdentContinue {c d : Char} (h : isIdentContinue c = true)
    (hd : isIdentContinue d = false) : c ≠ d := by
  rintro rfl
  exact Bool.false_ne_true (hd.symm.trans h)

theorem label_eq_iff {taken : Text} (hne : taken ≠ []) (rest : Text) :
    label (taken ++ rest) = ⟨taken, rest, true⟩ ↔
      IsLabel taken ∧ rest.head?.any isIdentContinue = false := by
  rcases taken with _ | ⟨c, taken⟩
  · exact absurd rfl hne
  rw [List.cons_append, label]
  -- A label begins with a letter, and with none there is nothing to take.
  split
  · rename_i hstart
    rw [Cut.cons_eq_iff, Cut.run_eq_iff]
    constructor
    · exact fun h => ⟨⟨c, taken, rfl, hstart, h.1⟩, h.2⟩
    · rintro ⟨⟨d, more, heq, _, hmore⟩, hrest⟩
      injection heq with _ heq
      exact ⟨heq ▸ hmore, hrest⟩
  · rename_i hstart
    constructor
    · intro h
      injection h with hnil _ _
      exact absurd hnil (List.cons_ne_nil _ _).symm
    · rintro ⟨⟨d, more, heq, hd, _⟩, _⟩
      injection heq with heq _
      rw [heq] at hstart
      exact absurd hd hstart

theorem lineEnd?_eq_some_iff {text : Text} {cut : Cut} :
    lineEnd? text = some cut ↔
      ∃ newline rest, text = newline ++ rest ∧ IsLineEnd newline ∧ cut = ⟨newline, rest, true⟩ := by
  constructor
  · intro h
    unfold lineEnd? at h
    split at h
    · rename_i rest
      exact ⟨['\n'], rest, rfl, .inl rfl, (Option.some.inj h).symm⟩
    · rename_i rest
      exact ⟨['\r', '\n'], rest, rfl, .inr rfl, (Option.some.inj h).symm⟩
    · exact absurd h (by simp only [reduceCtorEq, not_false_eq_true])
  · rintro ⟨newline, rest, rfl, rfl | rfl, rfl⟩
    · rfl
    · rfl

/-- The end of a line begins with no character of a name. -/
theorem IsLineEnd.head {newline : Text} (h : IsLineEnd newline) (rest : Text) :
    (newline ++ rest).head?.any isIdentContinue = false ∧
      (newline ++ rest).head?.any isBlank = false := by
  rcases h with rfl | rfl <;> exact ⟨rfl, rfl⟩

theorem quotedLabel?_of_isQuoted {quoted name : Text} {isNowdoc : Bool}
    (h : IsQuoted quoted name isNowdoc) {rest : Text}
    (hrest : rest.head?.any isIdentContinue = false) :
    quotedLabel? (quoted ++ rest) = some (name, isNowdoc, ⟨quoted, rest, true⟩) := by
  -- A label in quotes ends at its mark, a bare one at the character that follows it.
  cases h with
  | bare hlabel =>
    rcases hlabel with ⟨c, more, rfl, hstart, hmore⟩
    have hident : isIdentContinue c = true := by rw [isIdentContinue, hstart, Bool.true_or]
    have hmark : ¬ (c = '\'' ∨ c = '"') := by
      rw [not_or]
      exact ⟨ne_of_isIdentContinue hident rfl, ne_of_isIdentContinue hident rfl⟩
    have hname := (label_eq_iff (List.cons_ne_nil c more) rest).mpr
      ⟨⟨c, more, rfl, hstart, hmore⟩, hrest⟩
    rw [List.cons_append] at hname ⊢
    rw [quotedLabel?, if_neg hmark, hname]
    dsimp only
    rw [if_pos (List.cons_ne_nil _ _)]
  | @quoted _ mark hlabel hmark =>
    rcases hlabel with ⟨c, more, rfl, hstart, hmore⟩
    have hhead : (mark :: rest).head?.any isIdentContinue = false := by
      rcases hmark with rfl | rfl <;> rfl
    have hname := (label_eq_iff (List.cons_ne_nil c more) (mark :: rest)).mpr
      ⟨⟨c, more, rfl, hstart, hmore⟩, hhead⟩
    have htext : mark :: (c :: more) ++ [mark] ++ rest = mark :: (c :: more ++ mark :: rest) := by
      simp only [List.cons_append, List.append_assoc, List.nil_append]
    rw [htext, quotedLabel?, if_pos hmark, hname]
    dsimp only
    rw [if_pos ⟨List.cons_ne_nil _ _, rfl⟩]

theorem isQuoted_of_quotedLabel? {text name : Text} {isNowdoc : Bool} {cut : Cut}
    (h : quotedLabel? text = some (name, isNowdoc, cut)) :
    ∃ quoted, text = quoted ++ cut.rest ∧ IsQuoted quoted name isNowdoc ∧
      cut = ⟨quoted, cut.rest, true⟩ := by
  have hsplits := splits_quotedLabel? h
  have hlabel {name : Text} {rest : Text} (hne : (label rest).taken ≠ [])
      (hname : (label rest).taken = name) : IsLabel name := by
    have hname' := splits_label rest
    rw [Cut.Splits] at hname'
    -- A label is never left open, so what was taken is one.
    have hclosed : (label rest).closed = true := by
      unfold label
      split
      · rfl
      split <;> rfl
    have hcut : label ((label rest).taken ++ (label rest).rest) =
        ⟨(label rest).taken, (label rest).rest, true⟩ := by
      rw [hname', ← hclosed]
    rw [← hname]
    exact ((label_eq_iff hne _).mp hcut).1
  refine ⟨cut.taken, hsplits.symm, ?_⟩
  unfold quotedLabel? at h
  split at h
  · exact absurd h (by simp only [reduceCtorEq, not_false_eq_true])
  rename_i c rest
  -- A quote in front asks for the same quote behind the label.
  split at h
  · rename_i hmark
    dsimp only at h
    split at h
    · rename_i d after hrest
      split at h
      · rename_i htaken
        injection h with h
        rw [Prod.mk.injEq, Prod.mk.injEq] at h
        rcases h with ⟨hname, hnowdoc, hcut⟩
        rw [← hcut, ← hnowdoc, htaken.2, hname]
        exact ⟨.quoted (hlabel htaken.1 hname) hmark, rfl⟩
      · exact absurd h (by simp only [reduceCtorEq, not_false_eq_true])
    · exact absurd h (by simp only [reduceCtorEq, not_false_eq_true])
  · dsimp only at h
    split at h
    · rename_i htaken
      injection h with h
      rw [Prod.mk.injEq, Prod.mk.injEq] at h
      rcases h with ⟨hname, hnowdoc, hcut⟩
      rw [← hcut, ← hnowdoc, ← hname]
      refine ⟨.bare (hlabel htaken rfl), ?_⟩
      unfold label
      dsimp only
      split <;> rfl
    · exact absurd h (by simp only [reduceCtorEq, not_false_eq_true])

/-- What the scanner takes for an opening line is one, and it takes every one. -/
theorem opening?_eq_some_iff {text : Text} {opening : Opening} :
    opening? text = some opening ↔ ∃ line rest, text = line ++ rest ∧
      Opens line opening.label opening.isNowdoc ∧ opening.cut = ⟨line, rest, true⟩ := by
  constructor
  · intro h
    unfold opening? at h
    split at h
    · rename_i text
      dsimp only at h
      split at h
      · exact absurd h (by simp only [reduceCtorEq, not_false_eq_true])
      rename_i name isNowdoc cut hcut
      split at h
      · exact absurd h (by simp only [reduceCtorEq, not_false_eq_true])
      rename_i newline hnewline
      rcases isQuoted_of_quotedLabel? hcut with ⟨quoted, htext, hquoted, hcuteq⟩
      rcases lineEnd?_eq_some_iff.mp hnewline with ⟨ending, rest, hrest, hending, rfl⟩
      rw [hcuteq] at h
      rw [← Option.some.inj h]
      -- The line is what the three parts of the rule have taken: blanks, label and line end.
      have hblank : ∀ c ∈ (Cut.run isBlank text).taken, isBlank c = true :=
        fun c hc => List.mem_takeWhile_imp hc
      refine ⟨_, rest, ?_, .mk hblank hquoted hending, ?_⟩
      · have hblanks := Cut.splits_run isBlank text
        rw [Cut.Splits, htext, hrest] at hblanks
        rw [List.append_assoc, List.append_assoc, List.append_assoc, hblanks]
        rfl
      · simp only [Cut.prepend, Cut.run, List.cons_append, List.append_assoc, List.nil_append]
    · exact absurd h (by simp only [reduceCtorEq, not_false_eq_true])
  · rcases opening with ⟨label, isNowdoc, cut⟩
    rintro ⟨line, rest, rfl, hopens, hcut⟩
    rcases hopens with @⟨blanks, quoted, _, newline, _, hblanks, hquoted, hnewline⟩
    -- Neither a quote nor a letter is a blank, so the blanks end at the label.
    have hhead : (quoted ++ (newline ++ rest)).head?.any isBlank = false := by
      cases hquoted with
      | bare hlabel =>
        rcases hlabel with ⟨c, more, hlabel, hstart, _⟩
        rw [hlabel]
        exact isBlank_of_isIdentStart hstart
      | quoted _ hmark => rcases hmark with rfl | rfl <;> rfl
    have hrun := Cut.run_eq_iff.mpr ⟨hblanks, hhead⟩
    have hlabel := quotedLabel?_of_isQuoted hquoted (hnewline.head rest).1
    have hend := lineEnd?_eq_some_iff.mpr ⟨newline, rest, rfl, hnewline, rfl⟩
    simp only [List.cons_append, List.append_assoc, List.nil_append, opening?, hrun, hlabel, hend]
    rw [show cut = _ from hcut]
    simp only [Cut.prepend, List.cons_append, List.append_assoc, List.nil_append]

/-- The characters of an opening line, up to its end. -/
theorem Opens.chars {line label : Text} {isNowdoc : Bool} (h : Opens line label isNowdoc) :
    ∃ front newline, line = front ++ newline ∧ (∀ c ∈ front, isOpeningChar c = true) ∧
      IsLineEnd newline := by
  cases h with
  | @mk blanks quoted label newline isNowdoc hblanks hquoted hnewline =>
    refine ⟨_, newline, rfl, fun c hc => ?_, hnewline⟩
    have hident {label : Text} (hlabel : IsLabel label) (hc : c ∈ label) :
        isOpeningChar c = true := by
      rcases hlabel with ⟨d, more, rfl, hstart, hmore⟩
      have hcontinue : isIdentContinue c = true := by
        rcases List.mem_cons.mp hc with rfl | hc
        · rw [isIdentContinue, hstart, Bool.true_or]
        · exact hmore c hc
      rw [isOpeningChar, hcontinue, Bool.or_true]
    rw [List.mem_append, List.mem_append] at hc
    -- A character of the line is one of the three signs, a blank, or one of the quoted label.
    rcases hc with (hc | hc) | hc
    · simp only [List.mem_cons, List.not_mem_nil, or_false, or_self] at hc
      rw [hc]
      rfl
    · rw [isOpeningChar, hblanks c hc]
      simp only [Bool.or_true, Bool.true_or]
    · cases hquoted with
      | bare hlabel => exact hident hlabel hc
      | quoted hlabel hmark =>
        rw [List.cons_append, List.mem_cons, List.mem_append, List.mem_singleton] at hc
        rcases hc with rfl | hc | rfl
        · rcases hmark with rfl | rfl <;> rfl
        · exact hident hlabel hc
        · rcases hmark with rfl | rfl <;> rfl

/-- A character that cannot stand in an opening line and comes before the end of the first line. -/
theorem breaks_of_not_isOpeningChar {front back : Text} {c : Char}
    (hfront : ∀ d ∈ front, isLineBreak d = false) (hc : isOpeningChar c = false)
    (hbreak : isLineBreak c = false) : Breaks (front ++ c :: back) := by
  intro begun line rest label isNowdoc htext _ hline hopens
  rcases hopens.chars with ⟨chars, newline, heq, hchars, hnewline⟩
  have hnewlineBreak {d : Char} (hd : d ∈ newline) : isLineBreak d = true := by
    rcases hnewline with rfl | rfl
    · rw [List.mem_singleton.mp hd]
      rfl
    · rw [List.mem_cons, List.mem_singleton] at hd
      rcases hd with rfl | rfl <;> rfl
  have hlast : '\n' ∈ line := by
    have hend : (begun ++ line).getLast? = some '\n' := by
      rw [heq]
      rcases hnewline with rfl | rfl <;> simp only [List.getLast?_append, List.getLast?_cons,
        List.getLast?_nil, Option.getD_none, Option.getD_some, Option.some_or]
    rw [List.getLast?_append] at hend
    rcases hsome : line.getLast? with _ | d
    · exact absurd (List.getLast?_eq_none_iff.mp hsome) hline
    · rw [hsome, Option.some_or] at hend
      rw [← Option.some.inj hend]
      exact List.mem_of_getLast? hsome
  -- The line reaches past the character, and no opening line has it.
  have hmem : c ∈ line := by
    rcases List.append_eq_append_iff.mp htext with ⟨more, hline', _⟩ | ⟨more, hfront', _⟩
    · rcases more with _ | ⟨d, more⟩
      · rw [hline', List.append_nil] at hlast
        exact absurd (hfront _ hlast) (by decide)
      · rename_i hrest
        rw [List.cons_append, List.cons.injEq] at hrest
        rw [hline', hrest.1]
        exact List.mem_append_right _ List.mem_cons_self
    · exact absurd (hfront _ (hfront' ▸ List.mem_append_left _ hlast)) (by decide)
  have hall : c ∈ chars ++ newline := heq ▸ List.mem_append_right _ hmem
  rcases List.mem_append.mp hall with hmem' | hmem'
  · exact Bool.false_ne_true (hc.symm.trans (hchars c hmem'))
  · exact Bool.false_ne_true (hbreak.symm.trans (hnewlineBreak hmem'))

/-- What is no opening line is none in front of a text that no opening line runs into. -/
theorem opening?_retail {taken between old text : Text} (hne : taken ≠ [])
    (hbreaks : Breaks text) (h : opening? (taken ++ (between ++ old)) = none) :
    opening? (taken ++ (between ++ text)) = none := by
  have hold {line rest label : Text} {isNowdoc : Bool}
      (hopens : Opens line label isNowdoc) (htext : taken ++ (between ++ old) = line ++ rest) :
      False := by
    have hsome : opening? _ = some ⟨label, isNowdoc, ⟨line, rest, true⟩⟩ :=
      opening?_eq_some_iff.mpr ⟨line, rest, htext, hopens, rfl⟩
    exact absurd (h.symm.trans hsome) (by simp only [reduceCtorEq, not_false_eq_true])
  by_contra hnone
  rcases Option.ne_none_iff_exists'.mp hnone with ⟨opening, hopening⟩
  rcases opening?_eq_some_iff.mp hopening with ⟨line, rest, htext, hopens, _⟩
  rw [← List.append_assoc] at htext
  -- The opening line lies in the old text, or it reaches into the new one.
  rcases List.append_eq_append_iff.mp htext with ⟨back, hline, htext'⟩ | ⟨more, hfront, _⟩
  · by_cases hback : back = []
    · rw [hback, List.append_nil] at hline
      refine hold hopens (show _ = line ++ old from ?_)
      rw [hline, List.append_assoc]
    · refine hbreaks _ _ _ _ _ htext' ?_ hback (hline ▸ hopens)
      exact fun hnil => hne (List.append_eq_nil_iff.mp hnil).1
  · refine hold hopens (show _ = line ++ (more ++ old) from ?_)
    rw [← List.append_assoc, ← List.append_assoc, hfront]

/-! ## The end -/

theorem after?_append (head rest : Text) : after? head (head ++ rest) = some rest := by
  induction head with
  | nil => rfl
  | cons c head ih => rw [List.cons_append, after?, if_pos rfl, ih]

/-- A line closes a heredoc when it has the label behind blanks and no name goes on there. -/
theorem closing?_eq_some_iff {name line : Text} {cut : Cut} (hname : IsLabel name) :
    closing? name line = some cut ↔ ∃ blanks rest, line = blanks ++ (name ++ rest) ∧
      (∀ c ∈ blanks, isBlank c = true) ∧ rest.head?.any isIdentContinue = false ∧
        cut = ⟨blanks ++ name, rest, true⟩ := by
  constructor
  · intro h
    unfold closing? at h
    dsimp only at h
    split at h
    · exact absurd h (by simp only [reduceCtorEq, not_false_eq_true])
    rename_i rest hrest
    split at h
    · exact absurd h (by simp only [reduceCtorEq, not_false_eq_true])
    rename_i hident
    have hline := Cut.splits_run isBlank line
    rw [Cut.Splits, after?_eq_some hrest] at hline
    exact ⟨_, rest, hline.symm, fun c hc => List.mem_takeWhile_imp hc, Bool.not_eq_true _ ▸ hident,
      (Option.some.inj h).symm⟩
  · rintro ⟨blanks, rest, rfl, hblanks, hrest, rfl⟩
    -- A label begins with no blank.
    have hhead : (name ++ rest).head?.any isBlank = false := by
      rcases hname with ⟨c, more, rfl, hstart, _⟩
      exact isBlank_of_isIdentStart hstart
    rw [closing?, Cut.run_eq_iff.mpr ⟨hblanks, hhead⟩]
    dsimp only
    rw [after?_append]
    dsimp only
    rw [hrest, if_neg Bool.false_ne_true]

theorem rawLines_cons {c : Char} (hc : c ≠ '\n') (text : Text) :
    rawLines (c :: text) = match rawLines text with
      | [] => [[c]]
      | line :: more => (c :: line) :: more :=
  rawLines.eq_3 c text hc

/-- The first line of a text that has a line end. -/
theorem rawLines_line {line : Text} (hline : '\n' ∉ line) (more : Text) :
    rawLines (line ++ '\n' :: more) = (line ++ ['\n']) :: rawLines more := by
  induction line with
  | nil => rfl
  | cons c line ih =>
    rw [List.mem_cons, not_or] at hline
    rw [List.cons_append, rawLines_cons (Ne.symm hline.1), ih hline.2]
    rfl

/-- A text without a line end in front of the first line. -/
theorem exists_rawLines_append {front : Text} (hne : front ≠ []) (hfront : '\n' ∉ front)
    (rest : Text) : ∃ line more, rawLines (front ++ rest) = (front ++ line) :: more ∧
      rest = line ++ more.flatten ∧ (line = [] → rest = []) := by
  have hrest : rest = [] ∨ ∃ line more, rawLines rest = line :: more ∧ line ≠ [] := by
    rcases rest with _ | ⟨c, rest⟩
    · exact .inl rfl
    · refine .inr ?_
      unfold rawLines
      split
      · rename_i heq
        exact absurd heq (List.cons_ne_nil _ _)
      · exact ⟨_, _, rfl, List.cons_ne_nil _ _⟩
      · split
        · exact ⟨_, _, rfl, List.cons_ne_nil _ _⟩
        · exact ⟨_, _, rfl, List.cons_ne_nil _ _⟩
  -- By induction on what stands in front: without a line end it goes with the first line.
  induction front with
  | nil => exact absurd rfl hne
  | cons c front ih =>
    rw [List.mem_cons, not_or] at hfront
    rw [List.cons_append, rawLines_cons (Ne.symm hfront.1)]
    rcases front with _ | ⟨d, front⟩
    · rw [List.nil_append]
      rcases hrest with rfl | ⟨line, more, hlines, hline⟩
      · exact ⟨[], [], rfl, rfl, fun _ => rfl⟩
      · rw [hlines]
        refine ⟨line, more, rfl, ?_, fun hnil => absurd hnil hline⟩
        rw [← List.flatten_cons, ← hlines, flatten_rawLines]
    · rcases ih (List.cons_ne_nil d front) hfront.2 with ⟨line, more, hlines, heq, hnil⟩
      rw [hlines]
      exact ⟨line, more, rfl, heq, hnil⟩

/-- The first line of a text, which is its last one when it has no end. -/
theorem exists_first_line {text : Text} (hne : text ≠ []) :
    '\n' ∉ text ∧ rawLines text = [text] ∨
      ∃ line more, text = line ++ '\n' :: more ∧ '\n' ∉ line ∧
        rawLines text = (line ++ ['\n']) :: rawLines more := by
  -- With a line end in it a text has a first line, and else it is one.
  by_cases hmem : '\n' ∈ text
  · rcases List.eq_append_cons_of_mem hmem with ⟨line, more, rfl, hline⟩
    exact .inr ⟨line, more, rfl, hline, rawLines_line hline more⟩
  · refine .inl ⟨hmem, ?_⟩
    induction text with
    | nil => exact absurd rfl hne
    | cons c text ih =>
      rw [List.mem_cons, not_or] at hmem
      rw [rawLines_cons (Ne.symm hmem.1)]
      rcases text with _ | ⟨d, text⟩
      · rfl
      · rw [ih (List.cons_ne_nil d text) hmem.2]

theorem IsLabel.not_mem {name : Text} (h : IsLabel name) {c : Char}
    (hc : isIdentContinue c = false) : c ∉ name := by
  rcases h with ⟨d, more, rfl, hstart, hmore⟩
  have hd : isIdentContinue d = true := by rw [isIdentContinue, hstart, Bool.true_or]
  intro hmem
  rcases List.mem_cons.mp hmem with rfl | hmem
  · exact Bool.false_ne_true (hc.symm.trans hd)
  · exact Bool.false_ne_true (hc.symm.trans (hmore c hmem))

theorem Closes.body {name taken rest : Text} (h : Closes name taken rest) (hname : IsLabel name) :
    body name (rawLines (taken ++ rest)) = ⟨taken, rest, true⟩ := by
  -- By induction on the lines: the one with the label closes, and the others are passed over.
  induction h with
  | @here blanks rest hblanks hrest =>
    have hfront : '\n' ∉ blanks ++ name := by
      rw [List.mem_append, not_or]
      exact ⟨fun hmem => absurd (hblanks _ hmem) (by decide), hname.not_mem rfl⟩
    have hne : blanks ++ name ≠ [] := by
      rcases hname with ⟨c, more, rfl, _⟩
      exact List.append_ne_nil_of_right_ne_nil _ (List.cons_ne_nil c more)
    rcases exists_rawLines_append hne hfront rest with ⟨line, more, hlines, heq, hnil⟩
    -- The line may end right behind the label, where nothing continues it.
    have hline : line.head?.any isIdentContinue = false := by
      rcases line with _ | ⟨c, line⟩
      · rfl
      · rw [heq] at hrest
        exact hrest
    have hclosing := (closing?_eq_some_iff hname).mpr ⟨blanks, line, rfl, hblanks, hline, rfl⟩
    rw [← List.append_assoc] at hclosing
    rw [hlines, Heredoc.body, hclosing]
    dsimp only
    rw [← heq]
  | @line line taken rest hline hopen _ ih =>
    rw [List.append_assoc, List.cons_append, rawLines_line hline, Heredoc.body, hopen]
    dsimp only
    rw [ih]
    simp only [Cut.prepend, List.append_assoc, List.cons_append, List.nil_append]

/-- A heredoc ends at its label, behind lines that do not close it. -/
theorem body_eq_iff {name taken rest : Text} (hname : IsLabel name) :
    body name (rawLines (taken ++ rest)) = ⟨taken, rest, true⟩ ↔ Closes name taken rest := by
  refine ⟨fun h => ?_, fun h => h.body hname⟩
  -- By induction on the length of what was taken, a line at a time.
  induction hsize : taken.length using Nat.strong_induction_on generalizing taken with
  | h n ih =>
    by_cases hne : taken ++ rest = []
    · rw [hne] at h
      exact absurd (congrArg Cut.closed h) Bool.false_ne_true
    rcases exists_first_line hne with ⟨hmem, hlines⟩ | ⟨line, more, htext, hline, hlines⟩
    · rw [hlines, Heredoc.body] at h
      split at h
      · rename_i cut hclosing
        rcases (closing?_eq_some_iff hname).mp hclosing with
          ⟨blanks, tail, _, hblanks, htail, rfl⟩
        injection h with htaken hrest _
        rw [List.flatten_nil, List.append_nil] at hrest
        rw [← htaken, ← hrest]
        exact .here hblanks htail
      · exact absurd (congrArg Cut.closed h) Bool.false_ne_true
    · rw [hlines, Heredoc.body] at h
      split at h
      · rename_i cut hclosing
        rcases (closing?_eq_some_iff hname).mp hclosing with
          ⟨blanks, tail, heq, hblanks, htail, rfl⟩
        injection h with htaken hrest _
        rw [← htaken, ← hrest]
        refine .here hblanks ?_
        rcases tail with _ | ⟨c, tail⟩
        · have hmem : '\n' ∈ blanks ++ (name ++ []) :=
            heq ▸ List.mem_append_right _ List.mem_cons_self
          rw [List.append_nil, List.mem_append] at hmem
          rcases hmem with hmem | hmem
          · exact absurd (hblanks _ hmem) (by decide)
          · exact absurd hmem (hname.not_mem rfl)
        · exact htail
      -- The first line does not close, and what is left of the text is shorter.
      · rename_i hopen
        rcases hbody : Heredoc.body name (rawLines more) with ⟨front, back, closed⟩
        rw [hbody] at h
        injection h with htaken hrest hclosed
        have hsplits := splits_body name (rawLines more)
        rw [hbody, Cut.Splits, flatten_rawLines] at hsplits
        dsimp only at hsplits htaken
        dsimp only at hrest hclosed
        rw [← hsplits, hrest, hclosed] at hbody
        have hless : front.length < n := by
          rw [← hsize, ← htaken]
          simp only [List.length_append, List.length_cons, List.length_nil]
          omega
        rw [← htaken, List.append_assoc, List.singleton_append]
        exact .line hline hopen (ih _ hless hbody rfl)

/-- A heredoc is an opening line and what closes it. -/
theorem scan?_eq_some_iff {taken rest : Text} {isNowdoc : Bool} :
    scan? (taken ++ rest) = some (isNowdoc, ⟨taken, rest, true⟩) ↔
      ∃ line name more, taken = line ++ more ∧ Opens line name isNowdoc ∧ Closes name more rest := by
  constructor
  · intro h
    rcases Option.map_eq_some_iff.mp h with ⟨opening, hopening, heq⟩
    rcases opening?_eq_some_iff.mp hopening with ⟨line, after, htext, hopens, hcut⟩
    rw [Prod.mk.injEq, hcut] at heq
    rcases heq with ⟨rfl, heq⟩
    rcases hbody : body opening.label (rawLines after) with ⟨front, back, closed⟩
    dsimp only at heq
    rw [hbody] at heq
    injection heq with htaken hrest hclosed
    -- What the two parts have taken is the whole of it.
    have hsplits := splits_body opening.label (rawLines after)
    rw [hbody, Cut.Splits, flatten_rawLines] at hsplits
    dsimp only at hsplits hclosed hrest
    rw [← hsplits, hclosed, hrest] at hbody
    exact ⟨line, opening.label, front, htaken.symm, hopens,
      (body_eq_iff hopens.isLabel).mp hbody⟩
  · rintro ⟨line, name, more, rfl, hopens, hcloses⟩
    have hopening : opening? (line ++ more ++ rest) =
        some ⟨name, isNowdoc, ⟨line, more ++ rest, true⟩⟩ :=
      opening?_eq_some_iff.mpr ⟨line, more ++ rest, List.append_assoc _ _ _, hopens, rfl⟩
    rw [scan?, hopening, Option.map_some]
    dsimp only
    rw [(body_eq_iff hopens.isLabel).mpr hcloses]
    rfl

theorem Closes.retail {name taken rest other : Text} (h : Closes name taken rest)
    (hother : other.head?.any isIdentContinue = false) : Closes name taken other := by
  induction h with
  | here hblanks _ => exact .here hblanks hother
  | line hline hopen _ ih => exact .line hline hopen ih

/-- A heredoc in front of another text that does not go on with its label. -/
theorem scan?_retail {taken rest other : Text} {isNowdoc : Bool}
    (h : scan? (taken ++ rest) = some (isNowdoc, ⟨taken, rest, true⟩))
    (hother : other.head?.any isIdentContinue = false) :
    scan? (taken ++ other) = some (isNowdoc, ⟨taken, other, true⟩) := by
  rcases scan?_eq_some_iff.mp h with ⟨line, name, more, htaken, hopens, hcloses⟩
  exact scan?_eq_some_iff.mpr ⟨line, name, more, htaken, hopens, hcloses.retail hother⟩

end Heredoc

end PhpAssist

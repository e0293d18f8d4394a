import PhpAssist.Format.Specifier
import PhpAssist.Literal.Content
import PhpAssist.Proofs.Settled

/-!
# Literals on their way through a format

A chain goes through a format in double quotes on its way to a heredoc. A literal is escaped for
double quotes, its percent signs are doubled, and it is joined to the format; the format loses its
quotes, its specifiers are put into one form, and it is filled in. Every character of a literal is
written in one of four ways, and each step takes what the step before wrote of one character to what
the next one expects, whatever comes behind it. What the literal says therefore arrives as it is
written in a heredoc, and nothing that is joined changes anything else.

## Main definitions

* `Format.Part`: A literal by what it says, or an operand.
* `Format.Part.Woven`: What parts become with the values of the operands put in.

## Theorems

* `Format.written`: How a character is written.
* `Format.strip_parts`, `Format.normalize_parts`, `Format.placeholders_parts`: What the steps make
  of a format.
* `Format.fill_parts`: What is filled in is what was woven.
-/

namespace PhpAssist

namespace Escape

theorem escape_cons (special : Char → Bool) (c : Char) (text : Text) :
    escape special (c :: text) = escape special [c] ++ escape special text := by
  rw [escape, escape]
  split <;> rfl

theorem encodeDouble_cons (c : Char) (text : Text) :
    encodeDouble (c :: text) = encodeDouble [c] ++ encodeDouble text := escape_cons _ c text

theorem encodeHeredoc_cons (c : Char) (text : Text) :
    encodeHeredoc (c :: text) = encodeHeredoc [c] ++ encodeHeredoc text := escape_cons _ c text

theorem heredocOfDouble_cons {c : Char} (hc : c ≠ '\\') (rest : Text) :
    heredocOfDouble (c :: rest) = c :: heredocOfDouble rest := by
  rw [heredocOfDouble]
  · rintro _ rfl
    exact absurd rfl hc
  · rintro _ _ rfl
    exact absurd rfl hc

end Escape

namespace Format

open Escape

theorem escapePercent_append (text more : Text) :
    escapePercent (text ++ more) = escapePercent text ++ escapePercent more := List.flatMap_append

theorem normalize_cons {c : Char} (hc : c ≠ '%') (rest : Text) :
    normalize (c :: rest) = c :: normalize rest := by
  rw [normalize]
  rintro _ _ rfl
  exact absurd rfl hc

/-- A percent sign goes on with the character behind it, also where it is passed over by itself. -/
theorem normalize_specifier (c : Char) (rest : Text) :
    normalize ('%' :: c :: rest) =
      '%' :: (if c = 'd' ∨ c = 'f' then 's' else c) :: normalize rest := by
  rw [normalize]
  by_cases hpercent : c = '%'
  · rw [if_pos hpercent, hpercent, if_neg (by decide)]
  rw [if_neg hpercent]
  by_cases hstring : c = 's'
  · rw [if_pos (.inl hstring), hstring, if_neg (by decide)]
  by_cases hnumber : c = 'd' ∨ c = 'f'
  · rw [if_pos (.inr hnumber), if_pos hnumber]
  · -- What stands behind the percent sign begins nothing, so the scan is in step again behind it.
    rw [if_neg (not_or.mpr ⟨hstring, hnumber⟩), if_neg hnumber, normalize_cons hpercent]

theorem placeholders_cons {c : Char} (hc : c ≠ '%') (rest : Text) :
    placeholders (c :: rest) = placeholders rest := by
  rw [placeholders]
  rintro _ _ rfl
  exact absurd rfl hc

theorem template_cons {c : Char} (hc : c ≠ '%') (rest : Text) :
    Template.of (c :: rest) = ⟨c :: (Template.of rest).head, (Template.of rest).parts⟩ := by
  rw [Template.of]
  · rintro rfl
    exact absurd rfl hc
  · rintro _ _ rfl
    exact absurd rfl hc

/-! ## One character -/

/-- How a character that a literal says is written in a format in double quotes, in the format
    without its quotes, and in a heredoc. -/
inductive Written : Char → Text → Text → Text → Prop
  | escaped {c : Char} (hc : c = '\\' ∨ c = '$') : Written c ['\\', c] ['\\', c] ['\\', c]
  | quote : Written '"' ['\\', '"'] ['"'] ['"']
  | percent : Written '%' ['%', '%'] ['%', '%'] ['%']
  | plain {c : Char} (hslash : c ≠ '\\') (hdollar : c ≠ '$') (hquote : c ≠ '"')
      (hpercent : c ≠ '%') : Written c [c] [c] [c]

/-- Every character is written in one of the four ways. -/
theorem written (c : Char) :
    Written c (escapePercent (encodeDouble [c])) (escapePercent (encodeHeredoc [c]))
      (encodeHeredoc [c]) := by
  by_cases hslash : c = '\\'
  · subst hslash
    exact .escaped (.inl rfl)
  by_cases hdollar : c = '$'
  · subst hdollar
    exact .escaped (.inr rfl)
  by_cases hquote : c = '"'
  · subst hquote
    exact .quote
  by_cases hpercent : c = '%'
  · subst hpercent
    exact .percent
  -- Any other character stays as it is in all three.
  have hdouble : encodeDouble [c] = [c] := by
    simp only [encodeDouble, escape, hslash, hdollar, hquote, beq_iff_eq, Bool.or_eq_true, or_self,
      if_false]
  have hheredoc : encodeHeredoc [c] = [c] := by
    simp only [encodeHeredoc, escape, hslash, hdollar, beq_iff_eq, Bool.or_eq_true, or_self,
      if_false]
  have hescape : escapePercent [c] = [c] := by
    rw [escapePercent, List.flatMap_singleton, if_neg hpercent]
  rw [hdouble, hheredoc, hescape]
  exact .plain hslash hdollar hquote hpercent

namespace Written

variable {c : Char} {double format heredoc : Text}

/-- What is written of a character can be joined as it is. -/
theorem settled (h : Written c double format heredoc) :
    Join.Settled double ∧ Join.Settled heredoc := by
  have hpercent : Join.Settled ['%'] := .singleton (by decide) (by decide)
  cases h with
  | escaped _ => exact ⟨.escaped c, .escaped c⟩
  | quote => exact ⟨.escaped '"', .singleton (by decide) (by decide)⟩
  | percent => exact ⟨hpercent.append hpercent, hpercent⟩
  | plain hslash hdollar _ _ => exact ⟨.singleton hslash hdollar, .singleton hslash hdollar⟩

/-- What is written of a character begins with no dollar sign. -/
theorem head (h : Written c double format heredoc) (rest : Text) :
    (double ++ rest).head? ≠ some '$' ∧ (heredoc ++ rest).head? ≠ some '$' := by
  cases h with
  | escaped _ | quote | percent =>
    constructor <;> exact fun h => absurd (Option.some.inj h) (by decide)
  | plain _ hdollar _ _ =>
    exact ⟨fun h => hdollar (Option.some.inj h), fun h => hdollar (Option.some.inj h)⟩

theorem strip (h : Written c double format heredoc) (rest : Text) :
    heredocOfDouble (double ++ rest) = format ++ heredocOfDouble rest := by
  cases h with
  | escaped hc => rcases hc with rfl | rfl <;> rfl
  | quote => rfl
  | percent =>
    rw [List.cons_append, List.singleton_append, heredocOfDouble_cons (by decide),
      heredocOfDouble_cons (by decide)]
    rfl
  | plain hslash _ _ _ => exact heredocOfDouble_cons hslash rest

theorem normalize (h : Written c double format heredoc) (rest : Text) :
    normalize (format ++ rest) = format ++ Format.normalize rest := by
  cases h with
  | escaped hc =>
    rcases hc with rfl | rfl <;>
      rw [List.cons_append, List.singleton_append, normalize_cons (by decide),
        normalize_cons (by decide)] <;> rfl
  | quote => exact normalize_cons (by decide) rest
  | percent => rfl
  | plain _ _ _ hpercent => exact normalize_cons hpercent rest

theorem placeholders (h : Written c double format heredoc) (rest : Text) :
    placeholders (format ++ rest) = Format.placeholders rest := by
  cases h with
  | escaped hc =>
    rcases hc with rfl | rfl <;>
      rw [List.cons_append, List.singleton_append, placeholders_cons (by decide),
        placeholders_cons (by decide)]
  | quote => exact placeholders_cons (by decide) rest
  -- Two percent signs are one character.
  | percent =>
    rw [List.cons_append, List.singleton_append, Format.placeholders, if_neg (by decide),
      Nat.zero_add]
  | plain _ _ _ hpercent => exact placeholders_cons hpercent rest

end Written

/-! ## A literal -/

/-- An escaped literal can be joined as it is, and begins with no dollar sign. -/
theorem settled_literal (said : Text) :
    Join.Settled (escapePercent (encodeDouble said)) ∧ Join.Settled (encodeHeredoc said) := by
  induction said with
  | nil => exact ⟨.nil, .nil⟩
  | cons c said ih =>
    rw [encodeDouble_cons, escapePercent_append, encodeHeredoc_cons]
    exact ⟨(written c).settled.1.append ih.1, (written c).settled.2.append ih.2⟩

theorem head_literal (said : Text) :
    (escapePercent (encodeDouble said)).head? ≠ some '$' ∧
      (encodeHeredoc said).head? ≠ some '$' := by
  rcases said with _ | ⟨c, said⟩
  · exact ⟨fun h => absurd h (by decide), fun h => absurd h (by decide)⟩
  · rw [encodeDouble_cons, escapePercent_append, encodeHeredoc_cons]
    exact ⟨((written c).head _).1, ((written c).head _).2⟩

/-! ## The parts of a chain -/

/-- A literal by what it says, or an operand. -/
inductive Part where
  | literal (said : Text)
  | operand

namespace Part

/-- A part in a format in double quotes. -/
def double : Part → Text
  | .literal said => escapePercent (encodeDouble said)
  | .operand => ['%', 's']

/-- A part in the format without its quotes. -/
def format : Part → Text
  | .literal said => escapePercent (encodeHeredoc said)
  | .operand => ['%', 's']

/-- What parts become with the values of the operands put in, each in its turn. -/
inductive Woven : List Part → List Text → Text → Prop
  | nil : Woven [] [] []
  | literal {said content : Text} {parts : List Part} {values : List Text}
      (h : Woven parts values content) :
      Woven (.literal said :: parts) values (encodeHeredoc said ++ content)
  | operand {value content : Text} {parts : List Part} {values : List Text}
      (h : Woven parts values content) :
      Woven (.operand :: parts) (value :: values) (value ++ content)

/-- Going through parts character by character. -/
theorem byCharacter {motive : List Part → Prop} (nil : motive [])
    (char : ∀ c said parts,
      motive (.literal said :: parts) → motive (.literal (c :: said) :: parts))
    (done : ∀ parts, motive parts → motive (.literal [] :: parts))
    (operand : ∀ parts, motive parts → motive (.operand :: parts)) (parts : List Part) :
    motive parts := by
  induction parts with
  | nil => exact nil
  | cons part parts ih =>
    cases part with
    | literal said =>
      induction said with
      | nil => exact done parts ih
      | cons c said ihsaid => exact char c said parts ihsaid
    | operand => exact operand parts ih

theorem double_cons (c : Char) (said : Text) (parts : List Part) :
    (Part.literal (c :: said) :: parts).flatMap double =
      escapePercent (encodeDouble [c]) ++ (Part.literal said :: parts).flatMap double := by
  rw [List.flatMap_cons, List.flatMap_cons, double, double, encodeDouble_cons, escapePercent_append,
    List.append_assoc]

theorem format_cons (c : Char) (said : Text) (parts : List Part) :
    (Part.literal (c :: said) :: parts).flatMap format =
      escapePercent (encodeHeredoc [c]) ++ (Part.literal said :: parts).flatMap format := by
  rw [List.flatMap_cons, List.flatMap_cons, format, format, encodeHeredoc_cons,
    escapePercent_append, List.append_assoc]

end Part

open Format.Part

/-- A format in double quotes, read as it is in a heredoc. -/
theorem strip_parts (parts : List Part) :
    heredocOfDouble (parts.flatMap double) = parts.flatMap format := by
  induction parts using byCharacter with
  | nil => rfl
  | char c said parts ih => rw [double_cons, format_cons, (written c).strip, ih]
  | done parts ih => exact ih
  | operand parts ih =>
    rw [List.flatMap_cons, List.flatMap_cons, double, format, List.cons_append,
      List.singleton_append, heredocOfDouble_cons (by decide), heredocOfDouble_cons (by decide), ih]
    rfl

/-- There are no specifiers to put into another form. -/
theorem normalize_parts (parts : List Part) :
    normalize (parts.flatMap format) = parts.flatMap format := by
  induction parts using byCharacter with
  | nil => rfl
  | char c said parts ih => rw [format_cons, (written c).normalize, ih]
  | done parts ih => exact ih
  | operand parts ih =>
    rw [List.flatMap_cons, format, List.cons_append, List.singleton_append, normalize_specifier,
      if_neg (by decide), ih]

theorem placeholders_parts {parts : List Part} {values : List Text} {content : Text}
    (h : Woven parts values content) : placeholders (parts.flatMap format) = values.length := by
  -- A percent sign of a literal is doubled, so only an operand is counted.
  induction parts using byCharacter generalizing values content with
  | nil =>
    cases h
    rfl
  | char c said parts ih =>
    cases h with
    | literal h => rw [format_cons, (written c).placeholders, ih (.literal h)]
  | done parts ih =>
    cases h with
    | literal h => exact ih h
  | operand parts ih =>
    cases h with
    | operand h =>
      rw [List.flatMap_cons, format, List.cons_append, List.singleton_append, placeholders,
        if_pos rfl, ih h, List.length_cons, Nat.add_comm]

/-! ## Filling in -/

/-- A template begins with a piece that can be joined, and behind anything that can be gone on with
    its values are filled in as a content. -/
structure Fills (template : Template) (values : List Text) (content : Text) : Prop where
  head : template.head.head? ≠ some '$'
  parts : ∀ out, Join.Settled out →
    Template.fillParts (out ++ template.head) template.parts values = .ok (out ++ content)

namespace Fills

variable {template : Template} {values : List Text} {content : Text}

/-- A settled piece in front of the head. -/
theorem front (h : Fills template values content) {piece : Text} (hpiece : Join.Settled piece)
    (hhead : (piece ++ template.head).head? ≠ some '$') :
    Fills ⟨piece ++ template.head, template.parts⟩ values (piece ++ content) where
  head := hhead
  parts := by
    intro out hout
    have hparts := h.parts (out ++ piece) (hout.append hpiece)
    rw [List.append_assoc, List.append_assoc] at hparts
    exact hparts

/-- A piece that a specifier puts behind what is there. -/
theorem put (h : Fills template values content) {piece out : Text} (hpiece : Join.Settled piece)
    (hhead : piece.head? ≠ some '$') (hout : Join.Settled out) :
    Template.fillParts (Join.push (Join.push out piece) template.head) template.parts values =
      .ok (out ++ (piece ++ content)) := by
  rw [Join.push_of_settled hout hhead, Join.push_of_settled (hout.append hpiece) h.head,
    h.parts _ (hout.append hpiece), List.append_assoc]

/-- A percent sign. -/
theorem percent (h : Fills template values content) :
    Fills ⟨[], (['%', '%'], template.head) :: template.parts⟩ values (['%'] ++ content) where
  head := by simp only [List.head?_nil, ne_eq, reduceCtorEq, not_false_eq_true]
  parts := by
    intro out hout
    rw [List.append_nil, Template.fillParts.eq_def]
    dsimp only
    rw [if_pos rfl]
    exact h.put (.singleton (by decide) (by decide)) (by decide) hout

/-- A value. -/
theorem value (h : Fills template values content) {value : Text} (hvalue : Join.Settled value)
    (hhead : value.head? ≠ some '$') :
    Fills ⟨[], (['%', 's'], template.head) :: template.parts⟩ (value :: values)
      (value ++ content) where
  head := by simp only [List.head?_nil, ne_eq, reduceCtorEq, not_false_eq_true]
  parts := by
    intro out hout
    rw [List.append_nil, Template.fillParts.eq_def]
    dsimp only
    rw [if_neg (by decide), if_pos rfl]
    exact h.put hvalue hhead hout

/-- What is written of a character in front of a format. -/
theorem written {c : Char} {double format heredoc rest : Text}
    (hwritten : Written c double format heredoc) (h : Fills (Template.of rest) values content) :
    Fills (Template.of (format ++ rest)) values (heredoc ++ content) := by
  have hhead := (hwritten.head (Template.of rest).head).2
  have hfront := h.front hwritten.settled.2 hhead
  -- A doubled percent sign is a specifier of its own; anything else goes to the head.
  cases hwritten with
  | escaped hc =>
    rcases hc with rfl | rfl <;>
      rw [List.cons_append, List.singleton_append, template_cons (by decide),
        template_cons (by decide)] <;> exact hfront
  | quote =>
    rw [List.singleton_append, template_cons (by decide)]
    exact hfront
  | percent => exact h.percent
  | plain _ _ _ hpercent =>
    rw [List.singleton_append, template_cons hpercent]
    exact hfront

end Fills

/-- A format of parts is filled in with what is woven. -/
theorem fills_parts {parts : List Part} {values : List Text} {content : Text}
    (hvalues : ∀ value ∈ values, Join.Settled value ∧ value.head? ≠ some '$')
    (h : Woven parts values content) :
    Fills (Template.of (parts.flatMap format)) values content := by
  induction parts using byCharacter generalizing values content with
  | nil =>
    cases h
    exact ⟨fun h => absurd h (by decide), fun _ _ => rfl⟩
  | char c said parts ih =>
    cases h with
    | literal h =>
      rw [format_cons, encodeHeredoc_cons c said, List.append_assoc]
      exact (ih hvalues (.literal h)).written (Format.written c)
  | done parts ih =>
    cases h with
    | literal h => exact ih hvalues h
  -- A value takes one placeholder, and no character around it joins it.
  | operand parts ih =>
    cases h with
    | @operand value content _ values h =>
      have hvalue := hvalues value List.mem_cons_self
      exact (ih (fun it hit => hvalues it (List.mem_cons_of_mem _ hit)) h).value hvalue.1 hvalue.2

/-- Filling in a format of parts gives what is woven. -/
theorem fill_parts {parts : List Part} {values : List Text} {content : Text}
    (hvalues : ∀ value ∈ values, Join.Settled value ∧ value.head? ≠ some '$')
    (h : Woven parts values content) :
    (Template.of (parts.flatMap format)).fill values = .ok content := by
  have hfills := fills_parts hvalues h
  rw [Template.fill, Join.push_of_settled .nil hfills.head]
  exact hfills.parts [] .nil

end Format

end PhpAssist

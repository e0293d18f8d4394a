import PhpAssist.Proofs.Atoms
import PhpAssist.Proofs.FormatOperands

/-!
# Code in the bodies of literals

The body of a literal is text with code in braces in it. Code begins with a brace in front of a
dollar sign and ends with the brace that closes it, where braces and strings may be open inside. No
atom of the body reaches over an end of code: in front of it stands an atom by itself, and at its
end the brace. What rewrites atom by atom therefore rewrites the text and the code one by one.

It does not tell them apart. In code a backslash is not there for the sake of the quotes around the
literal, but the quote behind it loses it on the way to a heredoc, and every quote gets one on the
way to double quotes. Only code without such quotes is copied.

## Main definitions

* `Quoted.Ends`: A body behind which the string around it ends.
* `Literal.Segment`, `Literal.segments`: A body in atoms of text and stretches of code.

## Theorems

* `Quoted.close_append`: Of two things that are open, the inner one is closed first.
* `Literal.atoms_segments`: The atoms of a body are those of its stretches.
* `Literal.code_of_ends`: In double quotes code is never left open.
* `Literal.heredocOfDouble_eq_self_iff`, `Literal.doubleOfHeredoc_eq_self_iff`: What is copied.
* `Literal.rewrites_by_segment`: How the literals of a file are rewritten.
* `Literal.quotes_of_code_rewritten`: Code that is not copied.
-/

namespace PhpAssist

open Text

namespace Quoted

/-- The character that closes what is open. -/
def Open.closing : Open → Char
  | .quote mark => mark
  | .braces _ => '}'

/-- The character that closes the outermost of what is open. -/
def lastMark? (stack : List Open) : Option Char := stack.getLast?.map Open.closing

theorem lastMark?_cons (top : Open) (outer : List Open) :
    lastMark? (top :: outer) = some ((lastMark? outer).getD top.closing) := by
  rw [lastMark?, List.getLast?_cons, lastMark?]
  cases outer.getLast? <;> rfl

/-- What was read up to where everything is closed ends with the character that closes the
    outermost of it. -/
theorem concat_of_close {stack : List Open} {text taken rest : Text} {mark : Char}
    (hmark : lastMark? stack = some mark) (h : close stack text = ⟨taken, rest, true⟩) :
    ∃ inner, taken = inner ++ [mark] := by
  have hcons {c : Char} {more : Text} (hmore : ∃ inner, more = inner ++ [mark]) :
      ∃ inner, c :: more = inner ++ [mark] := by
    rcases hmore with ⟨inner, rfl⟩
    exact ⟨c :: inner, rfl⟩
  -- A character that closes something is the last one if nothing else is open.
  have hpop {c : Char} {outer : List Open} {text more : Text}
      (hmark : (lastMark? outer).getD c = mark) (hclose : close outer text = ⟨more, rest, true⟩)
      (hmore : lastMark? outer = some mark → ∃ inner, more = inner ++ [mark]) :
      ∃ inner, c :: more = inner ++ [mark] := by
    rcases outer with _ | ⟨next, outer⟩
    · rw [close] at hclose
      injection hclose with hnil
      exact ⟨[], by rw [← hnil, ← hmark]; rfl⟩
    · rw [lastMark?_cons] at hmark hmore
      exact hcons (hmore (congrArg some hmark))
  fun_induction close stack text generalizing taken with
  | case1 => exact absurd hmark.symm (Option.some_ne_none _)
  | case2 | case3 => exact absurd (congrArg Cut.closed h) Bool.false_ne_true
  -- Along the recursion: a step that closes nothing keeps the last mark.
  | case4 own outer c text ih =>
    rcases Cut.exists_of_cons_eq h with ⟨_, rfl, hinner⟩
    rcases Cut.exists_of_cons_eq hinner with ⟨_, rfl, hclose⟩
    exact hcons (hcons (ih hmark hclose))
  | case5 own outer c text _ _ ih =>
    rcases Cut.exists_of_cons_eq h with ⟨_, rfl, hclose⟩
    exact hcons (ih (by rw [lastMark?_cons, hmark, Option.getD_some]) hclose)
  | case6 outer c text _ _ ih =>
    rcases Cut.exists_of_cons_eq h with ⟨_, rfl, hclose⟩
    rw [lastMark?_cons] at hmark
    exact hpop (Option.some.inj hmark) hclose fun hmark => ih hmark hclose
  | case7 own outer c text _ _ _ ih =>
    rcases Cut.exists_of_cons_eq h with ⟨_, rfl, hclose⟩
    exact hcons (ih hmark hclose)
  | case8 own outer text ih =>
    rcases Cut.exists_of_cons_eq h with ⟨_, rfl, hclose⟩
    rw [lastMark?_cons] at hmark
    exact hcons (ih (by rw [lastMark?_cons]; exact hmark) hclose)
  | case9 own outer text _ ih =>
    rcases Cut.exists_of_cons_eq h with ⟨_, rfl, hclose⟩
    rw [lastMark?_cons] at hmark
    -- Only the outermost brace of the code closes it.
    by_cases hdepth : own ≤ 1
    · rw [if_pos hdepth] at hclose ih
      exact hpop (Option.some.inj hmark) hclose fun hmark => ih hmark hclose
    · rw [if_neg hdepth] at hclose ih
      exact hcons (ih (by rw [lastMark?_cons]; exact hmark) hclose)
  | case10 own outer c text _ _ _ ih =>
    rcases Cut.exists_of_cons_eq h with ⟨_, rfl, hclose⟩
    exact hcons (ih (by rw [lastMark?_cons, hmark, Option.getD_some]) hclose)
  | case11 own outer c text _ _ _ ih =>
    rcases Cut.exists_of_cons_eq h with ⟨_, rfl, hclose⟩
    exact hcons (ih hmark hclose)

/-! ## Closing one behind the other -/

/-- Goes on with what was left, if the end that was looked for was found. -/
def resume (cut : Cut) (scan : Text → Cut) : Cut := if cut.closed then cut.andThen scan else cut

theorem resume_cons (cut : Cut) (c : Char) (scan : Text → Cut) :
    resume (cut.cons c) scan = (resume cut scan).cons c := by
  unfold resume
  by_cases hclosed : cut.closed
  · rw [if_pos hclosed, if_pos (show (cut.cons c).closed = true from hclosed)]
    rfl
  · rw [if_neg hclosed, if_neg (show ¬ (cut.cons c).closed = true from hclosed)]

/-- What is open above something else is closed first. -/
theorem close_append (stack outer : List Open) (text : Text) :
    close (stack ++ outer) text = resume (close stack text) (close outer) := by
  fun_induction close stack text with
  | case1 => rfl
  | case2 => rw [List.cons_append, close]; rfl
  | case3 => rw [List.cons_append, close]; rfl
  | case4 mark below c text ih =>
    rw [List.cons_append, close, resume_cons, resume_cons, ← ih, List.cons_append]
  | case5 mark below c text hslash hbrace ih =>
    rw [List.cons_append, close_quote hslash, if_pos hbrace, resume_cons, ← ih]
    rfl
  | case6 below c text hslash hbrace ih =>
    rw [List.cons_append, close_quote hslash, if_neg hbrace, if_pos rfl, resume_cons, ← ih]
  | case7 mark below c text hslash hbrace hmark ih =>
    rw [List.cons_append, close_quote hslash, if_neg hbrace, if_neg hmark, resume_cons, ← ih]
    rfl
  | case8 depth below text ih =>
    rw [List.cons_append, close, if_pos rfl, resume_cons, ← ih]
    rfl
  -- A closing brace either leaves this code or one brace less of it; the rest of the stack is below
  -- both.
  | case9 depth below text hopens ih =>
    rw [List.cons_append, close, if_neg hopens, if_pos rfl, resume_cons, ← ih]
    by_cases hdepth : depth ≤ 1
    · rw [if_pos hdepth, if_pos hdepth]
    · rw [if_neg hdepth, if_neg hdepth]
      rfl
  | case10 depth below c text hopens hcloses hquote ih =>
    rw [List.cons_append, close, if_neg hopens, if_neg hcloses, if_pos hquote, resume_cons, ← ih]
    rfl
  | case11 depth below c text hopens hcloses hquote ih =>
    rw [List.cons_append, close, if_neg hopens, if_neg hcloses, if_neg hquote, resume_cons, ← ih]
    rfl

theorem length_rest_close (stack : List Open) (text : Text) :
    (close stack text).rest.length ≤ text.length := by
  have hsplits : (close stack text).taken ++ (close stack text).rest = text :=
    splits_close stack text
  have hlength := congrArg List.length hsplits
  rw [List.length_append] at hlength
  omega

/-- What is closed is closed at the same place, whatever is behind it. -/
theorem close_taken {stack : List Open} {text : Text} (h : (close stack text).closed = true)
    (other : Text) : close stack ((close stack text).taken ++ other) =
      ⟨(close stack text).taken, other, true⟩ := by
  have hsplits : (close stack text).taken ++ (close stack text).rest = text :=
    splits_close stack text
  -- Closing does not look at what is left, so that can be exchanged.
  have hagain : close stack ((close stack text).taken ++ (close stack text).rest) =
      ⟨(close stack text).taken, (close stack text).rest, true⟩ := by
    rw [hsplits, ← h]
  exact close_retail other hagain

/-- Braces that are closed in front of a quote, so that the quote ends the string around them, are
    closed in what is between. -/
theorem closed_braces {inner : Text} (h : close [.braces 1, .quote '"'] (inner ++ ['"']) =
    ⟨inner ++ ['"'], [], true⟩) : (close [.braces 1] inner).closed = true := by
  have hresume := close_append [.braces 1] [.quote '"'] (inner ++ ['"'])
  rw [List.singleton_append, h, resume] at hresume
  by_cases hclosed : (close [.braces 1] (inner ++ ['"'])).closed = true
  · rw [if_pos hclosed, Cut.andThen] at hresume
    have hstops := close_taken hclosed
    have hsplits : (close [.braces 1] (inner ++ ['"'])).taken ++ _ = _ := splits_close _ _
    generalize close [.braces 1] (inner ++ ['"']) = cut at hresume hstops hsplits
    -- The string takes something behind the braces, its quote at least.
    have hne : (close [.quote '"'] cut.rest).taken ≠ [] :=
      taken_ne_nil (congrArg Cut.closed hresume).symm
    rcases List.eq_nil_or_concat cut.rest with hrest | ⟨front, c, hrest⟩
    · rw [hrest] at hne
      exact absurd rfl hne
    · rw [List.concat_eq_append] at hrest
      rw [hrest, ← List.append_assoc] at hsplits
      rw [← (List.append_inj' hsplits rfl).1, hstops]
  · -- Braces that are not closed leave the string around them open.
    rw [if_neg hclosed] at hresume
    rw [← hresume] at hclosed
    exact absurd rfl hclosed

/-- The string that a body stands in ends behind it. -/
def Ends (inner : Text) : Prop :=
  close [.quote '"'] (inner ++ ['"']) = ⟨inner ++ ['"'], [], true⟩

theorem Inside.ends {inner : Text} (h : Inside inner) : Ends inner := by
  have hclose := h.close []
  rwa [List.append_nil] at hclose

theorem head?_concat_quote (rest : Text) :
    (rest ++ ['"']).head? = some '$' ↔ rest.head? = some '$' := by
  cases rest with
  | nil => simp
  | cons c rest => rfl

namespace Ends

variable {c : Char} {rest : Text}

theorem pair (h : Ends ('\\' :: c :: rest)) : Ends rest := by
  unfold Ends at h
  rw [List.cons_append, List.cons_append, close] at h
  exact Cut.cons_eq_iff.mp (Cut.cons_eq_iff.mp h)

theorem braces (h : Ends ('{' :: rest)) (hdollar : rest.head? = some '$') :
    close [.braces 1, .quote '"'] (rest ++ ['"']) = ⟨rest ++ ['"'], [], true⟩ := by
  unfold Ends at h
  rw [List.cons_append, close_quote (by decide),
    if_pos ⟨rfl, rfl, (head?_concat_quote rest).mpr hdollar⟩] at h
  exact Cut.cons_eq_iff.mp h

theorem closed (h : Ends ('{' :: rest)) (hdollar : rest.head? = some '$') :
    (close [.braces 1] rest).closed = true := closed_braces (h.braces hdollar)

theorem code (h : Ends ('{' :: rest)) (hdollar : rest.head? = some '$') :
    Ends (close [.braces 1] rest).rest := by
  have hbraces := h.braces hdollar
  have hclose := close_taken (h.closed hdollar)
  have hsplits : (close [.braces 1] rest).taken ++ (close [.braces 1] rest).rest = rest :=
    splits_close [.braces 1] rest
  generalize close [.braces 1] rest = cut at hclose hsplits ⊢
  have hresume := close_append [.braces 1] [.quote '"'] (cut.taken ++ (cut.rest ++ ['"']))
  rw [hclose, ← List.append_assoc, hsplits, List.singleton_append, hbraces, ← hsplits] at hresume
  -- What the braces took is in front on both sides.
  rcases hquote : close [.quote '"'] (cut.rest ++ ['"']) with ⟨taken, after, closed⟩
  have htaken := congrArg Cut.taken hresume
  have hafter := congrArg Cut.rest hresume
  have hclosed := congrArg Cut.closed hresume
  simp only [resume, Cut.andThen, Cut.prepend, hquote, if_true, List.append_assoc,
    List.append_cancel_left_eq] at htaken hafter hclosed
  rw [Ends, hquote, htaken, hafter, hclosed]

theorem single (h : Ends (c :: rest)) (hslash : c ≠ '\\')
    (hcode : ¬ (c = '{' ∧ rest.head? = some '$')) : Ends rest := by
  unfold Ends at h
  have hbrace : ¬ (c = '{' ∧ '"' = '"' ∧ (rest ++ ['"']).head? = some '$') := fun hbrace =>
    hcode ⟨hbrace.1, (head?_concat_quote rest).mp hbrace.2.2⟩
  rw [List.cons_append, close_quote hslash, if_neg hbrace] at h
  by_cases hquote : c = '"'
  · -- A quote would be the last character.
    rw [if_pos hquote, close] at h
    have hrest := congrArg Cut.rest h
    exact absurd hrest (List.append_ne_nil_of_right_ne_nil _ (List.cons_ne_nil _ _))
  · rw [if_neg hquote] at h
    exact Cut.cons_eq_iff.mp h

end Ends

end Quoted

namespace Literal

open Escape Quoted

/-- A stretch of a body: an atom of its text, or code in braces. -/
inductive Segment where
  | atom (atom : Atom)
  | code (text : Text)

/-- A segment as it is written. -/
def Segment.text : Segment → Text
  | atom it => it.text
  | code text => text

/-- A body in atoms of its text and stretches of code. Code begins with a brace in front of a dollar
    sign, and ends with the brace that closes it. -/
def segments : Text → List Segment
  | [] => []
  | '\\' :: c :: rest => .atom (.pair c) :: segments rest
  | c :: rest =>
    let cut := close [.braces 1] rest
    if c = '{' ∧ rest.head? = some '$' ∧ cut.closed = true then
      .code (c :: cut.taken) :: segments cut.rest
    else .atom (.single c) :: segments rest
termination_by body => body.length
decreasing_by
  · simp only [List.length_cons]; omega
  · have hrest := length_rest_close [.braces 1] rest
    simp only [List.length_cons]
    omega
  · simp only [List.length_cons]; omega

/-- The stretches of a body are its text. -/
theorem flatMap_text_segments (body : Text) : (segments body).flatMap Segment.text = body := by
  fun_induction segments body with
  | case1 => rfl
  | case2 c rest ih => rw [List.flatMap_cons, ih]; rfl
  | case3 c rest _ cut _ ih =>
    have hsplits : cut.taken ++ cut.rest = rest := splits_close _ _
    rw [List.flatMap_cons, ih, Segment.text, List.cons_append, hsplits]
  | case4 c rest _ cut _ ih => rw [List.flatMap_cons, ih]; rfl

/-- No atom reaches over an end of code. -/
theorem atoms_segments (body : Text) :
    atoms body = (segments body).flatMap fun segment => atoms segment.text := by
  fun_induction segments body with
  | case1 => rfl
  | case2 c rest ih => rw [List.flatMap_cons, ← ih]; rfl
  | case3 c rest _ cut hcode ih =>
    have hsplits : cut.taken ++ cut.rest = rest := splits_close _ _
    rcases concat_of_close rfl (show close [.braces 1] rest = ⟨cut.taken, cut.rest, true⟩ by
      rw [← hcode.2.2]) with ⟨inner, hinner⟩
    -- Code ends with a brace, so no backslash at its end takes a character from what is behind.
    have hends : endsInEscape (c :: cut.taken) = false := by
      rw [hinner]
      exact @endsInEscape_of_ne (c :: inner) '}' (by decide)
    rw [List.flatMap_cons, ← ih, Segment.text, ← atoms_append hends, List.cons_append, hsplits]
  | case4 c rest hpair cut _ ih =>
    rw [List.flatMap_cons, ← ih]
    by_cases hslash : c = '\\'
    · rcases rest with _ | ⟨next, rest⟩
      · rw [hslash]
        rfl
      · exact absurd rfl (hpair next rest hslash)
    · rw [atoms_single hslash, Segment.text, Atom.text, atoms_single hslash]
      rfl

/-- A body that begins with a dollar sign by itself does so in its text. -/
theorem head_of_segments {body : Text} {after : List Segment}
    (h : segments body = .atom (.single '$') :: after) : body.head? = some '$' := by
  rw [← flatMap_text_segments body, h]
  rfl

/-- In double quotes every brace in front of a dollar sign is one of code. -/
theorem code_of_ends {inner : Text} (h : Ends inner) (before after : List Segment) :
    segments inner ≠ before ++ .atom (.single '{') :: .atom (.single '$') :: after := by
  fun_induction segments inner generalizing before with
  | case1 => exact (List.append_ne_nil_of_right_ne_nil _ (List.cons_ne_nil _ _)).symm
  | case2 c rest ih =>
    intro heq
    rcases before with _ | ⟨first, before⟩
    · exact absurd (List.cons.inj heq).1 nofun
    · exact ih h.pair before (List.cons.inj heq).2
  -- A stretch of code is no atom, and what is behind it ends as the whole does.
  | case3 c rest _ cut hcode ih =>
    intro heq
    rw [hcode.1] at h
    rcases before with _ | ⟨first, before⟩
    · exact absurd (List.cons.inj heq).1 nofun
    · exact ih (h.code hcode.2.1) before (List.cons.inj heq).2
  | case4 c rest hpair cut hplain ih =>
    intro heq
    have hcode : ¬ (c = '{' ∧ rest.head? = some '$') := by
      rintro ⟨rfl, hdollar⟩
      exact hplain ⟨rfl, hdollar, h.closed hdollar⟩
    rcases before with _ | ⟨first, before⟩
    · -- The brace would be one of code.
      rw [List.nil_append, List.cons.injEq, Segment.atom.injEq, Atom.single.injEq] at heq
      exact hcode ⟨heq.1, head_of_segments heq.2⟩
    · -- A backslash by itself is the last atom, and two more are to come.
      have hslash : c ≠ '\\' := by
        rintro rfl
        rcases rest with _ | ⟨next, rest⟩
        · have htail := (List.cons.inj heq).2
          rw [segments] at htail
          exact absurd htail.symm (List.append_ne_nil_of_right_ne_nil _ (List.cons_ne_nil _ _))
        · exact hpair next rest rfl rfl
      exact ih (h.single hslash hcode) before (List.cons.inj heq).2

/-! ## Rewriting -/

/-- A way of rewriting that rewrites every atom by itself rewrites every stretch by itself. -/
theorem rewrite_segments {rewrite : Text → Text} (written : Atom → Text)
    (h : ∀ body, rewrite body = (atoms body).flatMap written) (body : Text) :
    rewrite body = (segments body).flatMap fun segment => rewrite segment.text := by
  rw [h, atoms_segments, List.flatMap_assoc]
  exact congrArg (List.flatMap · _) (funext fun segment => (h segment.text).symm)

/-- A body in double quotes loses the backslashes of its escaped quotes, and nothing else. -/
theorem heredocOfDouble_eq_self_iff (body : Text) :
    heredocOfDouble body = body ↔ .pair '"' ∉ atoms body := by
  constructor
  · -- If the body is kept, so is every atom of it.
    intro heq hmem
    have hatoms := atoms_heredocOfDouble body
    rw [heq] at hatoms
    have hkept := List.map_inj_left.mp ((List.map_id _).trans hatoms) _ hmem
    exact absurd hkept nofun
  -- Without an escaped quote every atom is kept.
  · intro hquote
    have hatoms : (atoms body).map Atom.unquoted = atoms body := by
      refine (List.map_congr_left fun atom hatom => ?_).trans (List.map_id _)
      cases atom with
      | single c => rfl
      | pair c =>
        have hc : c ≠ '"' := by
          rintro rfl
          exact hquote hatom
        rw [Atom.unquoted, if_neg hc]
        rfl
    rw [← flatMap_text_atoms (heredocOfDouble body), atoms_heredocOfDouble, hatoms,
      flatMap_text_atoms]

/-- A body of a heredoc gets something for every quote in it. -/
theorem length_doubleOfHeredoc (body : Text) :
    body.length + body.count '"' ≤ (doubleOfHeredoc body).length := by
  fun_induction doubleOfHeredoc body with
  | case1 => exact Nat.le_refl 0
  | case2 rest ih =>
    simp only [List.length_cons, List.count_cons, beq_iff_eq, Char.reduceEq, if_true, if_false]
    omega
  -- An escaped pair keeps its length, and a bare quote gets its backslash.
  | case3 c rest hquote ih =>
    have hc : c ≠ '"' := fun heq => hquote heq
    simp only [List.length_cons, List.count_cons, beq_iff_eq, Char.reduceEq, hc, if_false]
    omega
  | case4 rest ih =>
    simp only [List.length_cons, List.count_cons, beq_iff_eq, if_true]
    omega
  | case5 c rest _ _ hquote ih =>
    have hc : c ≠ '"' := fun heq => hquote heq
    simp only [List.length_cons, List.count_cons, beq_iff_eq, hc, if_false]
    omega

/-- A body of a heredoc has all of its quotes escaped, and nothing else. -/
theorem doubleOfHeredoc_eq_self_iff (body : Text) : doubleOfHeredoc body = body ↔ '"' ∉ body := by
  constructor
  · intro heq
    have hlength := length_doubleOfHeredoc body
    rw [heq] at hlength
    exact List.count_eq_zero.mp (by omega)
  · intro hquote
    fun_induction doubleOfHeredoc body with
    | case1 => rfl
    | case2 rest ih => simp at hquote
    | case3 c rest _ ih =>
      rw [ih fun hmem => hquote (List.mem_cons_of_mem _ (List.mem_cons_of_mem _ hmem))]
    | case4 rest ih => exact absurd List.mem_cons_self hquote
    | case5 c rest _ _ _ ih => rw [ih fun hmem => hquote (List.mem_cons_of_mem _ hmem)]

theorem heredocOfDouble_segments (inner : Text) : heredocOfDouble inner =
    ((segments inner).flatMap fun segment => heredocOfDouble segment.text) := by
  refine rewrite_segments (fun atom => atom.unquoted.text) (fun body => ?_) inner
  rw [← List.flatMap_map, ← atoms_heredocOfDouble, flatMap_text_atoms]

theorem doubleOfHeredoc_segments (body : Text) : doubleOfHeredoc body =
    ((segments body).flatMap fun segment => doubleOfHeredoc segment.text) := by
  refine rewrite_segments (fun atom => atom.quoted.flatMap Atom.text) (fun body => ?_) body
  rw [← List.flatMap_assoc, ← atoms_doubleOfHeredoc, flatMap_text_atoms]

/-- The rewritten literals of a file without diagnostics. Every stretch is rewritten by itself. Code
    is copied on the way from double quotes to a heredoc just if it has no escaped double quote, and
    on the way from a heredoc to double quotes just if it has none at all. In double quotes, no code
    is left open. -/
theorem rewrites_by_segment {text : Text} {node : Node} (hclean : (Parse.file text).diagnostics = [])
    (hnode : node ∈ (Parse.file text).root.descendants) (hkind : node.kind = .stringLiteral) :
    ∃ quoting source, parts node.tree = .ok (quoting, source) ∧
      (quoting = .double → ∃ inner, quotedInner '"' source = .ok inner ∧
        heredocContent node.tree = .ok (heredocOfDouble inner) ∧
        (segments inner).flatMap Segment.text = inner ∧
        heredocOfDouble inner =
          ((segments inner).flatMap fun segment => heredocOfDouble segment.text) ∧
        (∀ code, .code code ∈ segments inner →
          (heredocOfDouble code = code ↔ .pair '"' ∉ atoms code)) ∧
        ∀ before after,
          segments inner ≠ before ++ .atom (.single '{') :: .atom (.single '$') :: after) ∧
      (quoting = .heredoc → ∃ body, docBody source = .ok body ∧
        doubleContent node.tree = .ok (doubleOfHeredoc body) ∧
        (segments body).flatMap Segment.text = body ∧
        doubleOfHeredoc body =
          ((segments body).flatMap fun segment => doubleOfHeredoc segment.text) ∧
        ∀ code, .code code ∈ segments body → (doubleOfHeredoc code = code ↔ '"' ∉ code)) := by
  have hexpr : node.kind.isExpr = true := by rw [hkind]; rfl
  rcases Tree.string_of_shape (Parse.standalone_of_expr hclean hnode hexpr) hkind with
    ⟨tok, htree, hstring⟩
  have hexcerpt := Parse.excerpt_of_expr hclean hnode hexpr
  rw [htree] at hexcerpt ⊢
  rcases hexcerpt.lexes with ⟨_, _, hlexes⟩
  rcases hlexes.scan_of_mem (List.mem_singleton_self tok) with ⟨after, hscan⟩
  have hparts (quoting : Quoting) (hquoting : Quoting.ofKind? tok.kind = some quoting) :
      parts (.node .stringLiteral [.token tok]) = .ok (quoting, tok.text) :=
    parts_token hstring hquoting
  -- One case a kind of literals. Two of them are not rewritten in stretches.
  rcases Lexer.string_of_scan hscan hstring with ⟨hsingle, _⟩ | ⟨hdouble, hhead, hcut⟩ |
    ⟨isNowdoc, hdoc, hfound⟩
  · exact ⟨_, _, hparts .single (by rw [hsingle]; rfl), nofun, nofun⟩
  · rcases exists_inside_of_scan hhead hcut.symm with ⟨inner, hinside, hinner⟩
    have hdouble := hparts .double (by rw [hdouble]; rfl)
    refine ⟨_, _, hdouble, fun _ => ⟨inner, hinner, ?_, flatMap_text_segments inner,
      heredocOfDouble_segments inner, fun code _ => heredocOfDouble_eq_self_iff code,
      code_of_ends hinside.ends⟩, nofun⟩
    rw [heredocContent, hdouble]
    show (do return heredocOfDouble (← quotedInner '"' tok.text) : Except AssistError Text) = _
    rw [hinner]
    rfl
  -- A nowdoc is copied, a heredoc escapes its quotes.
  · cases isNowdoc with
    | true => exact ⟨_, _, hparts .nowdoc (by rw [hdoc]; rfl), nofun, nofun⟩
    | false =>
      rcases docBody_of_scan hfound with ⟨body, hbody⟩
      have hheredoc := hparts .heredoc (by rw [hdoc]; rfl)
      refine ⟨_, _, hheredoc, nofun, fun _ => ⟨body, hbody, ?_, flatMap_text_segments body,
        doubleOfHeredoc_segments body, fun code _ => doubleOfHeredoc_eq_self_iff code⟩⟩
      rw [doubleContent, hheredoc]
      show (do return doubleOfHeredoc (← docBody tok.text) : Except AssistError Text) = _
      rw [hbody]
      rfl

/-- A string with an escaped quote in front of code with a quoted key. -/
theorem rewrites_by_segment_key :
    (Parse.file "<?php f(\"\\\"\x7b$a[\"k\"]\x7d\\n\");".toList).diagnostics = [] ∧
      ∃ node ∈ (Parse.file "<?php f(\"\\\"\x7b$a[\"k\"]\x7d\\n\");".toList).root.descendants,
        node.kind = .stringLiteral ∧ ∃ inner,
          quotedInner '"' "\"\\\"\x7b$a[\"k\"]\x7d\\n\"".toList = .ok inner ∧
          heredocContent node.tree = .ok (heredocOfDouble inner) ∧
          heredocOfDouble inner =
            ((segments inner).flatMap fun segment => heredocOfDouble segment.text) := by
  generalize htext : "<?php f(\"\\\"\x7b$a[\"k\"]\x7d\\n\");".toList = text
  obtain ⟨hclean, hliteral⟩ :
      (Parse.file text).diagnostics = [] ∧
      ((Parse.file text).root.descendants[5]?).any (fun (node : Node) =>
        node.kind == .stringLiteral && (parts node.tree).toOption ==
        some (.double, "\"\\\"\x7b$a[\"k\"]\x7d\\n\"".toList)) = true := by
    rw [← htext]
    decide +kernel
  rcases (Option.any_eq_true _ _).mp hliteral with ⟨node, hget, hnode⟩
  rw [Bool.and_eq_true, beq_iff_eq, beq_iff_eq] at hnode
  rcases hnode with ⟨hkind, hsource⟩
  have hmem := List.mem_of_getElem? hget
  rcases rewrites_by_segment hclean hmem hkind with ⟨quoting, source, hparts, hdouble, _⟩
  rw [hparts] at hsource
  rcases Prod.mk.inj (Option.some.inj hsource) with ⟨hquoting, hsource⟩
  rcases hdouble hquoting with ⟨inner, hinner, hcontent, _, hstretches, _⟩
  rw [hsource] at hinner
  exact ⟨hclean, node, hmem, hkind, inner, hinner, hcontent, hstretches⟩

/-- A body that is code from one end to the other. -/
theorem segments_code {body : Text} (hbrace : body.head? = some '\x7b')
    (hdollar : body.tail.head? = some '$') (hclosed : (close [.braces 1] body.tail).closed = true)
    (hrest : (close [.braces 1] body.tail).rest = []) : segments body = [.code body] := by
  rcases body with _ | ⟨c, rest⟩
  · exact absurd hbrace nofun
  · rw [List.head?_cons, Option.some.injEq] at hbrace
    rw [List.tail_cons] at hdollar hclosed hrest
    have hsplits : (close [.braces 1] rest).taken ++ (close [.braces 1] rest).rest = rest :=
      splits_close [.braces 1] rest
    rw [hrest, List.append_nil] at hsplits
    rw [hbrace, segments, if_pos ⟨rfl, hdollar, hclosed⟩, hrest, hsplits, segments]
    exact fun _ _ hslash => absurd hslash (by decide)

/-- Two literals that are code from one end to the other, with a double quote in it. On the way to a
    heredoc the quote loses its backslash, and on the way to double quotes it gets one. -/
theorem quotes_of_code_rewritten :
    (Parse.file
        "<?php f(\"\x7b$a['\\\"']\x7d\", <<<E\n\x7b$a[\"k\"]\x7d\nE);".toList
        ).diagnostics = [] ∧
      ∃ double ∈ (Parse.file
          "<?php f(\"\x7b$a['\\\"']\x7d\", <<<E\n\x7b$a[\"k\"]\x7d\nE);".toList
          ).root.descendants,
      ∃ doc ∈ (Parse.file
          "<?php f(\"\x7b$a['\\\"']\x7d\", <<<E\n\x7b$a[\"k\"]\x7d\nE);".toList
          ).root.descendants,
        double.kind = .stringLiteral ∧ doc.kind = .stringLiteral ∧
        (parts double.tree).toOption =
          some (.double, '"' :: ("\x7b$a['\\\"']\x7d".toList ++ ['"'])) ∧
        segments "\x7b$a['\\\"']\x7d".toList = [.code "\x7b$a['\\\"']\x7d".toList] ∧
        (heredocContent double.tree).toOption = some "\x7b$a['\"']\x7d".toList ∧
        (parts doc.tree).toOption = some (.heredoc, "<<<E\n\x7b$a[\"k\"]\x7d\nE".toList) ∧
        (docBody "<<<E\n\x7b$a[\"k\"]\x7d\nE".toList).toOption = some "\x7b$a[\"k\"]\x7d".toList ∧
        segments "\x7b$a[\"k\"]\x7d".toList = [.code "\x7b$a[\"k\"]\x7d".toList] ∧
        (doubleContent doc.tree).toOption = some "\x7b$a[\\\"k\\\"]\x7d".toList := by
  generalize htext :
    "<?php f(\"\x7b$a['\\\"']\x7d\", <<<E\n\x7b$a[\"k\"]\x7d\nE);".toList = text
  obtain ⟨hclean, hdouble, hdoc⟩ :
      (Parse.file text).diagnostics = [] ∧
      ((Parse.file text).root.descendants[5]?).any (fun (node : Node) =>
        node.kind == .stringLiteral &&
        (parts node.tree).toOption ==
          some (.double, '"' :: ("\x7b$a['\\\"']\x7d".toList ++ ['"'])) &&
        (heredocContent node.tree).toOption == some "\x7b$a['\"']\x7d".toList) = true ∧
      ((Parse.file text).root.descendants[6]?).any (fun (node : Node) =>
        node.kind == .stringLiteral &&
        (parts node.tree).toOption == some (.heredoc, "<<<E\n\x7b$a[\"k\"]\x7d\nE".toList) &&
        (doubleContent node.tree).toOption == some "\x7b$a[\\\"k\\\"]\x7d".toList) = true := by
    rw [← htext]
    decide +kernel
  rcases (Option.any_eq_true _ _).mp hdouble with ⟨double, hget, hdouble⟩
  rcases (Option.any_eq_true _ _).mp hdoc with ⟨doc, hget', hdoc⟩
  simp only [Bool.and_eq_true, beq_iff_eq] at hdouble hdoc
  rcases hdouble with ⟨⟨hkind, hparts⟩, hcontent⟩
  rcases hdoc with ⟨⟨hkind', hparts'⟩, hcontent'⟩
  refine ⟨hclean, double, List.mem_of_getElem? hget, doc, List.mem_of_getElem? hget', hkind, hkind',
    hparts, ?_, hcontent, hparts', by decide +kernel, ?_, hcontent'⟩
  · exact segments_code (by decide) (by decide) (by decide) (by decide)
  · exact segments_code (by decide) (by decide) (by decide) (by decide)

end Literal

end PhpAssist

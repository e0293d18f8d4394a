import PhpAssist.Assist.Operands
import PhpAssist.Proofs.TextEnds

/-!
# Pieces that join as they are

Joining changes a piece only where it ends in something that more text could go on with: a dollar
sign, a brace, or a variable. A piece in which every dollar sign is escaped, or has a closing brace
somewhere behind it, ends in none of these, whatever its other characters are. Such pieces can be
joined one behind the other, and what is joined is such a piece again. An escaped text is one, and
so is an expression in braces.

## Main definitions

* `Join.Settled`: A piece whose dollar signs are escaped or have a closing brace behind them.

## Theorems

* `Join.push_of_settled`: A piece is put behind such a piece as it is.
* `Join.Settled.append`: Two such pieces, one behind the other, are one.
-/

namespace PhpAssist

namespace Join

open Text

/-- A piece that does not end in an escape, and whose dollar signs are escaped or have a closing
    brace behind them. -/
structure Settled (text : Text) : Prop where
  unescaped : endsInEscape text = false
  dollars : ∀ before after, text = before ++ '$' :: after →
    endsInEscape before = true ∨ '}' ∈ after

namespace Settled

variable {text more : Text}

theorem nil : Settled [] where
  unescaped := endsInEscape_nil
  dollars := fun _ _ h =>
    absurd h.symm (List.append_ne_nil_of_right_ne_nil _ (List.cons_ne_nil _ _))

/-- A character that means the same everywhere. -/
theorem singleton {c : Char} (hslash : c ≠ '\\') (hdollar : c ≠ '$') : Settled [c] where
  unescaped := @endsInEscape_of_ne [] c hslash
  dollars := by
    intro before after h
    have hmem : '$' ∈ [c] := by
      rw [h]
      exact List.mem_append_right _ List.mem_cons_self
    exact absurd (List.mem_singleton.mp hmem).symm hdollar

/-- A character with a backslash before it. -/
theorem escaped (c : Char) : Settled ['\\', c] where
  unescaped := by
    rw [show ['\\', c] = ['\\'] ++ [c] from rfl, endsInEscape_concat]
    split
    · rfl
    · rfl
  dollars := by
    intro before after h
    rcases before with _ | ⟨first, _ | ⟨second, before⟩⟩
    · exact absurd (List.cons.inj h).1 (by decide)
    · rw [← (List.cons.inj h).1]
      exact .inl rfl
    · have hlength := congrArg List.length h
      simp only [List.length_cons, List.length_nil, List.cons_append, List.length_append] at hlength
      omega

/-- Two pieces, one behind the other. A dollar sign of the second is escaped by what stands before
    it there, since no escape is left over from the first. -/
theorem append (h : Settled text) (hmore : Settled more) : Settled (text ++ more) where
  unescaped := by
    rw [endsInEscape_append h.unescaped]
    exact hmore.unescaped
  dollars := by
    intro before after heq
    have hsecond {front : Text} (hfront : more = front ++ '$' :: after) :
        endsInEscape (text ++ front) = true ∨ '}' ∈ after := by
      rw [endsInEscape_append h.unescaped]
      exact hmore.dollars front after hfront
    -- The dollar sign stands in the second piece, or in the first one.
    rcases List.append_eq_append_iff.mp heq with ⟨front, rfl, hfront⟩ | ⟨back, hback, hrest⟩
    · exact hsecond hfront
    · rcases back with _ | ⟨c, back⟩
      · rw [List.append_nil] at hback
        rw [← hback, ← List.append_nil text]
        exact hsecond hrest.symm
      · injection hrest with hc hrest
        rw [← hc] at hback
        refine (h.dollars before back hback).imp id fun hbrace => ?_
        rw [hrest]
        exact List.mem_append_left _ hbrace

/-- Something in braces. -/
theorem braced (text : Text) : Settled (Resolution.braced text) where
  unescaped := endsInEscape_of_ne (by decide)
  dollars := by
    intro before after h
    -- What stands behind a dollar sign ends with the closing brace.
    have hlast : (before ++ '$' :: after).getLast? = some '}' := by
      rw [← h]
      exact List.getLast?_concat
    rw [List.getLast?_append, List.getLast?_cons, Option.some_or, Option.some.injEq] at hlast
    rcases List.eq_nil_or_concat after with rfl | ⟨front, c, rfl⟩
    · exact absurd hlast (by decide)
    · rw [List.concat_eq_append, List.getLast?_concat, Option.getD_some] at hlast
      right
      rw [hlast, List.concat_eq_append]
      exact List.mem_append_right _ (List.mem_singleton_self _)

/-- No variable stands at the end. -/
theorem variableAtEnd?_eq_none (h : Settled text) : variableAtEnd? text = none := by
  -- A variable is a dollar sign that is not escaped, with no brace in what follows it.
  have hname {before name : Text} (hsplit : text = before ++ '$' :: name)
      (hbefore : endsInEscape before = false) (hbrace : '}' ∉ name) : False := by
    rcases h.dollars before name hsplit with hescape | hmem
    · exact absurd (hescape.symm.trans hbefore) (by decide)
    · exact hbrace hmem
  have hcontinue {name : Text} (hall : name.all isIdentContinue = true) : '}' ∉ name :=
    fun hmem => absurd (List.all_eq_true.mp hall '}' hmem) (by decide)
  have hisName {name : Text} (hname : isName name = true) : '}' ∉ name := by
    rw [isName, Bool.and_eq_true] at hname
    exact hcontinue hname.2
  rw [variableAtEnd?]
  split
  · rename_i parts hproperty
    rcases parts with ⟨before, whole⟩
    rcases propertyAtEnd?_eq_some hproperty with
      ⟨name, arrow, rfl, hsplit, hvariable, hbefore, harrow, _⟩
    refine (hname hsplit hbefore ?_).elim
    rw [List.mem_append, List.mem_append, not_or, not_or]
    refine ⟨hisName hvariable, ?_, hcontinue (all_takeEndWhile _ _)⟩
    simp only [arrows, List.mem_cons, List.not_mem_nil, or_false] at harrow
    rcases harrow with rfl | rfl <;> decide
  · rcases hfound : nameAtEnd? text with _ | ⟨before, whole⟩
    · rfl
    · rcases nameAtEnd?_eq_some hfound with ⟨name, rfl, hsplit, hvariable, hbefore⟩
      exact (hname hsplit hbefore (hisName hvariable)).elim

end Settled

/-- A piece is put behind a settled one as it is. -/
theorem push_of_settled {out piece : Text} (h : Settled out) (hpiece : piece.head? ≠ some '$') :
    push out piece = out ++ piece := by
  rcases piece with _ | ⟨first, piece⟩
  · rw [push, List.append_nil]
  -- None of the three guards applies, so nothing is written in front of the piece.
  have hdollar : (out.getLast? == some '$' && !endsInEscape out.dropLast) = false := by
    rw [Bool.eq_false_iff, ne_eq, Bool.and_eq_true, beq_iff_eq, Bool.not_eq_true']
    rintro ⟨hlast, hescape⟩
    rcases h.dollars _ _ (eq_concat_of_getLast? hlast) with hends | hmem
    · exact absurd (hends.symm.trans hescape) (by decide)
    · exact absurd hmem List.not_mem_nil
  have hbrace : (first == '$') = false := by
    rw [Bool.eq_false_iff, ne_eq, beq_iff_eq]
    rintro rfl
    exact hpiece rfl
  have hguard : guard out first (first :: piece) = out := by
    rw [guard, hdollar, hbrace, h.variableAtEnd?_eq_none]
    simp only [Bool.false_and, Bool.and_false, Bool.false_eq_true, if_false, ite_self]
  rw [push, hguard]

end Join

end PhpAssist

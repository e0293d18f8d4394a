import PhpAssist.Format.Specifier
import PhpAssist.Proofs.Bodies

/-!
# What joined bodies say

Joining two bodies is to say what the first says and then what the second says. It does at every
border but a few. The check of the border looks at the characters next to it, and there are five
borders at which that is not enough: a number that the right piece goes on with, an arrow that it
completes behind a variable, a brace that is escaped already, a variable right behind something that
an opening brace goes on with, and an arrow with a digit behind it, which is no property.

## Main definitions

* `Body.Pending.straddles`: A number or an arrow that goes on across the border.
* `Body.misguards`: A change of the left piece that changes what it says.
* `Body.seamless`: None of the five.

## Theorems

* `Body.read_push`: Two pieces joined say what the one says and then what the other says.
* `Body.read_pushes`: So do any number of pieces.
* `Body.arrow_across_border`: An arrow that the right piece completes.
-/

namespace PhpAssist

open Text

namespace Body

variable {quoted : Bool} {pending : Pending} {items left right : List Item} {out piece : Text}

/-! ## Borders -/

/-- Whether what is pending is a number or an arrow that goes on in a piece. -/
def Pending.straddles (quoted : Bool) (piece : Text) : Pending → Bool
  | .hex digits => piece.head?.any fun c => ((Pending.hex digits).goesOn quoted c).isSome
  | .octal digits => piece.head?.any fun c => ((Pending.octal digits).goesOn quoted c).isSome
  | .unicode => piece.head?.any fun c => (Pending.unicode.goesOn quoted c).isSome
  | .arrow _ seen => completesArrow seen piece
  | _ => false

/-- Whether the characters that joining puts into the left piece change what it says. -/
def misguards (quoted : Bool) (out piece : Text) : Bool :=
  -- A backslash behind a backslash is escaped itself.
  out.getLast? == some '{' && endsInEscape out.dropLast && piece.head? == some '$' ||
  Join.extendsVariable piece &&
    -- A brace behind a lone dollar sign, or behind `\u`, opens something else.
    ((Join.variableAtEnd? out).any (fun (before, _) =>
        ((run quoted .plain before).2.goesOn quoted '{').isSome) ||
      -- A property does not begin with a digit.
      (Join.propertyAtEnd? out).isSome && (out.takeEndWhile isIdentContinue).head?.any Char.isDigit)

/-- Whether neither piece changes what the other says once they are joined. -/
def seamless (quoted : Bool) (out piece : Text) : Bool :=
  !(run quoted .plain out).2.straddles quoted piece && !misguards quoted out piece

/-! ## Where the left piece is changed -/

namespace Pending

/-- Whether something waits for its end. -/
def isOpen : Pending → Bool
  | .codepoint _ | .index _ | .code _ _ => true
  | _ => false

theorem isOpen_of_flush (h : pending.flush = some items) : pending.isOpen = false := by
  cases pending with
  | codepoint | index | code => exact absurd h (by simp only [flush, reduceCtorEq,
      not_false_eq_true])
  | _ => rfl

/-- Only closing characters end what waits for its end. -/
theorem isOpen_step {c : Char} (h : pending.isOpen = true) (hbrace : c ≠ '}')
    (hbracket : c ≠ ']') : (pending.step quoted c).2.isOpen = true := by
  unfold step
  cases pending with
  | codepoint digits => rw [goesOn, if_neg hbrace]; rfl
  | index access => rw [goesOn, if_neg hbracket]; rfl
  | code isNamed inside => rw [goesOn, if_neg fun hc => hbrace hc.1]; rfl
  | _ => exact absurd h Bool.false_ne_true

/-- A character that opens something goes on only with what waits for its end then, unless it is
    escaped. -/
theorem stops_of_opening {c : Char} (hc : c = '$' ∨ c = '{') (hescape : pending ≠ .escape)
    (h : (pending.step quoted c).2.isOpen = false) : pending.goesOn quoted c = none := by
  -- If it went on with what is pending, something would be open behind it.
  rcases hnext : pending.goesOn quoted c with _ | next
  · rfl
  have hopen : next.2.isOpen = false := by rwa [step, hnext] at h
  exfalso
  revert hnext hopen
  rcases hc with rfl | rfl
  all_goals
    cases pending with
    | escape => exact absurd rfl hescape
    | plain | hex | octal | property | unicode | dollar | brace | codepoint | index | name =>
      intro hnext hopen
      cases hnext <;> exact absurd (show true = false from hopen) (by decide)
    | code =>
      intro hnext hopen
      rw [goesOn, if_neg fun hc => absurd hc.1 (by decide)] at hnext
      cases hnext
      exact absurd (show true = false from hopen) (by decide)
    | arrow word seen =>
      intro hnext _
      rw [goesOn, if_neg fun hc => absurd hc.2 (by decide), if_neg] at hnext
      · exact absurd hnext (by simp only [reduceCtorEq, not_false_eq_true])
      · intro hany
        rcases List.any_eq_true.mp hany with ⟨arrow, harrow, hprefix⟩
        have hplain := plain_of_arrow harrow (List.isPrefixOf_iff_prefix.mp hprefix)
        first
        | exact hplain.2.1 rfl
        | exact hplain.2.2 rfl

end Pending

/-- What waits for its end goes on waiting where there is no closing character. -/
theorem isOpen_run {text : Text} (h : pending.isOpen = true) (htext : '}' ∉ text ∧ ']' ∉ text) :
    (run quoted pending text).2.isOpen = true := by
  induction text generalizing pending with
  | nil => exact h
  | cons c text ih =>
    rw [List.mem_cons, List.mem_cons, not_or, not_or] at htext
    exact ih (Pending.isOpen_step h (Ne.symm htext.1.1) (Ne.symm htext.2.1))
      ⟨htext.1.2, htext.2.2⟩

/-- A character that stops what is pending. -/
theorem run_of_stop {text : Text} {c : Char}
    (hflush : (run quoted .plain text).2.flush = some items)
    (hstop : (run quoted .plain text).2.goesOn quoted c = none) :
    run quoted .plain (text ++ [c]) =
      ((run quoted .plain text).1 ++ items ++ (begins c).1, (begins c).2) := by
  rw [run_concat, Pending.step, hstop, hflush, List.append_assoc]
  rfl

/-- A dollar sign or a brace that is not escaped, and behind which nothing waits for its end, begins
    anew. -/
theorem run_opening {text : Text} {c : Char} (hc : c = '$' ∨ c = '{')
    (hescape : endsInEscape text = false)
    (hopen : (run quoted .plain (text ++ [c])).2.isOpen = false) :
    ∃ items, (run quoted .plain text).2.flush = some items ∧
      run quoted .plain (text ++ [c]) =
        ((run quoted .plain text).1 ++ items ++ (begins c).1, (begins c).2) := by
  have hne : (run quoted .plain text).2 ≠ .escape := fun heq =>
    absurd (((describes text).escaped heq).symm.trans hescape) (by decide)
  rw [run_concat] at hopen
  have hstop := Pending.stops_of_opening hc hne hopen
  rcases Pending.flush_of_stops hstop with ⟨items, hflush⟩
  exact ⟨items, hflush, run_of_stop hflush hstop⟩

/-- An escape behind what may end. -/
theorem run_escape {text : Text} (hflush : (run quoted .plain text).2.flush = some items)
    (rest : Text) :
    run quoted .plain (text ++ '\\' :: rest) =
      ((run quoted .plain text).1 ++ items ++ (run quoted .escape rest).1,
        (run quoted .escape rest).2) := by
  -- Whatever is pending, a backslash does not go on with it.
  have hstop : (run quoted .plain text).2.goesOn quoted '\\' = none := by
    cases hpending : (run quoted .plain text).2 with
    | escape | codepoint | index | code =>
      rw [hpending] at hflush
      exact absurd hflush (by simp only [Pending.flush, reduceCtorEq, not_false_eq_true])
    | arrow word seen =>
      rw [Pending.goesOn, if_neg fun hc => absurd hc.2 (by decide), if_neg]
      intro hany
      rcases List.any_eq_true.mp hany with ⟨arrow, harrow, hprefix⟩
      exact (plain_of_arrow harrow (List.isPrefixOf_iff_prefix.mp hprefix)).1 rfl
    | _ => rfl
  rw [List.append_cons, run_append, run_of_stop hflush hstop]
  simp only [begins, if_true, List.append_nil]

/-- What is read, as what was said and what was pending. -/
theorem read_eq_some {text : Text} (h : read quoted text = some left) :
    ∃ items, (run quoted .plain text).2.flush = some items ∧
      left = (run quoted .plain text).1 ++ items := by
  rcases Option.map_eq_some_iff.mp h with ⟨items, hflush, heq⟩
  exact ⟨items, hflush, heq.symm⟩

/-- A dollar sign at the end says the same with a backslash before it. -/
theorem run_escapedDollar {front : Text} (hfront : endsInEscape front = false)
    (h : read quoted (front ++ ['$']) = some left) :
    run quoted .plain (front ++ ['\\', '$']) = (left, .plain) := by
  rcases read_eq_some h with ⟨items, hflush, rfl⟩
  rcases run_opening (.inl rfl) hfront (Pending.isOpen_of_flush hflush) with ⟨before, hbefore, hrun⟩
  rw [hrun] at hflush ⊢
  have hdollar : some (bytes ['$']) = some items := hflush
  rw [run_escape hbefore, ← Option.some.inj hdollar, show begins '$' = ([], .dollar) from rfl,
    List.append_nil]
  rfl

/-- A brace at the end says the same by its number. -/
theorem run_escapedBrace {front : Text} (hfront : endsInEscape front = false)
    (h : read quoted (front ++ ['{']) = some left) :
    run quoted .plain (front ++ ['\\', 'x', '7', 'b']) = (left, .plain) := by
  rcases read_eq_some h with ⟨items, hflush, rfl⟩
  rcases run_opening (.inr rfl) hfront (Pending.isOpen_of_flush hflush) with ⟨before, hbefore, hrun⟩
  rw [hrun] at hflush ⊢
  have hbrace : some (bytes ['{']) = some items := hflush
  have hnumber : run quoted .escape ['x', '7', 'b'] = (bytes ['{'], .plain) := by
    cases quoted <;> decide
  rw [run_escape hbefore, hnumber, ← Option.some.inj hbrace,
    show begins '{' = ([], .brace) from rfl,
    List.append_nil]

/-! ## A variable in braces -/

theorem run_name {word text : Text} (htext : text.all isIdentContinue = true) :
    run quoted (.name word) text = ([], .name (word ++ text)) := by
  induction text generalizing word with
  | nil => rw [run, List.append_nil]
  | cons c text ih =>
    rw [List.all_cons, Bool.and_eq_true] at htext
    have hstep : (Pending.name word).step quoted c = ([], .name (word ++ [c])) := by
      rw [Pending.step, Pending.goesOn, if_pos htext.1]
    rw [run, hstep, ih htext.2, List.append_assoc]
    rfl

theorem run_property {access text : Text} (htext : text.all isIdentContinue = true) :
    run quoted (.property access) text = ([], .property (access ++ text)) := by
  induction text generalizing access with
  | nil => rw [run, List.append_nil]
  | cons c text ih =>
    rw [List.all_cons, Bool.and_eq_true] at htext
    have hstep : (Pending.property access).step quoted c = ([], .property (access ++ [c])) := by
      rw [Pending.step, Pending.goesOn, if_pos htext.1]
    rw [run, hstep, ih htext.2, List.append_assoc]
    rfl

/-- A name behind a dollar sign. -/
theorem run_dollar {word : Text} (hword : isName word = true) :
    run quoted .dollar word = ([], .name word) := by
  rw [isName, Bool.and_eq_true] at hword
  rcases word with _ | ⟨c, word⟩
  · exact absurd hword.1 Bool.false_ne_true
  rw [List.head?_cons, Option.any_some, List.all_cons, Bool.and_eq_true] at hword
  have hstep : Pending.dollar.step quoted c = ([], .name [c]) := by
    rw [Pending.step, Pending.goesOn, if_pos hword.1]
  rw [run, hstep, run_name hword.2.2]
  rfl

/-- An access behind a dollar sign: a name, an arrow and a property. -/
theorem run_access {word arrow property : Text} (hword : isName word = true)
    (harrow : arrow ∈ Join.arrows) (hproperty : isName property = true) :
    run quoted .dollar (word ++ (arrow ++ property)) =
      ([], .property ('$' :: (word ++ (arrow ++ property)))) := by
  have hrun : run quoted (.name word) arrow = ([], .arrow word arrow) := by
    simp only [Join.arrows, List.mem_cons, List.not_mem_nil, or_false] at harrow
    rcases harrow with rfl | rfl <;> rfl
  rw [isName, Bool.and_eq_true] at hproperty
  rcases property with _ | ⟨c, property⟩
  · exact absurd hproperty.1 Bool.false_ne_true
  rw [List.head?_cons, Option.any_some, List.all_cons, Bool.and_eq_true] at hproperty
  -- The name behind the arrow makes it an access.
  have hstep : (Pending.arrow word arrow).step quoted c =
      ([], .property ('$' :: (word ++ (arrow ++ [c])))) := by
    rw [Pending.step, Pending.goesOn, if_pos ⟨harrow, hproperty.1⟩]
  rw [run_append, run_dollar hword, run_append, hrun, run, hstep, run_property hproperty.2.2]
  simp only [List.nil_append, List.append_assoc, List.cons_append]

/-- Braces close where nothing in them opens or closes anything. -/
theorem closed_of_plain {text : Text} (h : ∀ c ∈ text, c ∉ ['{', '}', '\'', '"']) :
    (Quoted.close [.braces 1] (text ++ ['}'])).closed = true := by
  induction text with
  | nil => rfl
  | cons c text ih =>
    have hc := h c List.mem_cons_self
    simp only [List.mem_cons, List.not_mem_nil, or_false, not_or] at hc
    rw [List.cons_append, Quoted.close, if_neg hc.1, if_neg hc.2.1, if_neg (by
      rw [not_or]; exact hc.2.2)]
    exact ih fun c hc => h c (List.mem_cons_of_mem _ hc)

theorem run_code {inside text : Text} (h : '}' ∉ text) :
    run quoted (.code false inside) text = ([], .code false (inside ++ text)) := by
  induction text generalizing inside with
  | nil => rw [run, List.append_nil]
  | cons c text ih =>
    rw [List.mem_cons, not_or] at h
    have hstep : (Pending.code false inside).step quoted c =
        ([], .code false (inside ++ [c])) := by
      rw [Pending.step, Pending.goesOn, if_neg fun hc => h.1 hc.1.symm]
    rw [run, hstep, ih h.2, List.append_assoc]
    rfl

/-- A variable in braces is its value. -/
theorem run_braced {code : Text} (h : ∀ c ∈ code, c ∉ ['{', '}', '\'', '"']) :
    run quoted .brace ('$' :: code ++ ['}']) = ([.value ('$' :: code)], .plain) := by
  -- Without braces and quotes in it, the code ends at the first brace.
  have hcode : ∀ c ∈ '$' :: code, c ∉ ['{', '}', '\'', '"'] := by
    intro c hc
    rcases List.mem_cons.mp hc with rfl | hc
    · decide
    · exact h c hc
  have hbrace : '}' ∉ code := fun hmem => h '}' hmem (by decide)
  have hopen : Pending.brace.step quoted '$' = ([], .code false ['$']) := rfl
  have hclose : (Pending.code false ('$' :: code)).step quoted '}' =
      ([.value ('$' :: code)], .plain) := by
    rw [Pending.step, Pending.goesOn, if_pos ⟨rfl, closed_of_plain hcode⟩]
    rfl
  rw [List.cons_append, run, hopen, run_append, run_code hbrace, run, run]
  rw [List.singleton_append, hclose]
  rfl

/-- A variable at the end of a piece is read as one behind its dollar sign. -/
theorem variable_of_end {before whole : Text} (h : Join.variableAtEnd? out = some (before, whole))
    (hdigit : ((Join.propertyAtEnd? out).isSome &&
      (out.takeEndWhile isIdentContinue).head?.any Char.isDigit) = false) :
    ∃ code, whole = '$' :: code ∧ out = before ++ whole ∧ endsInEscape before = false ∧
      (∀ c ∈ code, c ∉ ['{', '}', '\'', '"'] ∧ c ≠ ']') ∧
      ∃ pending, run quoted .dollar code = ([], pending) ∧ pending.flush = some [.value whole] := by
  -- Neither a name nor an arrow has a character that code in braces is cut at.
  have hplain {c : Char} (hc : isIdentContinue c = true) :
      c ∉ ['{', '}', '\'', '"'] ∧ c ≠ ']' := by
    constructor
    · intro hmem
      simp only [List.mem_cons, List.not_mem_nil, or_false] at hmem
      rcases hmem with rfl | rfl | rfl | rfl <;> exact absurd hc (by decide)
    · rintro rfl
      exact absurd hc (by decide)
  have hname {name : Text} (hname : isName name = true) :
      ∀ c ∈ name, c ∉ ['{', '}', '\'', '"'] ∧ c ≠ ']' := by
    rw [isName, Bool.and_eq_true] at hname
    exact fun c hc => hplain (List.all_eq_true.mp hname.2 c hc)
  have harrows : ∀ arrow ∈ Join.arrows, ∀ c ∈ arrow, c ∉ ['{', '}', '\'', '"'] ∧ c ≠ ']' := by
    have hall : (Join.arrows.all fun arrow => arrow.all fun c =>
        c ∉ ['{', '}', '\'', '"'] ∧ c ≠ ']') = true := by
      decide
    intro arrow harrow c hc
    exact of_decide_eq_true (List.all_eq_true.mp (List.all_eq_true.mp hall arrow harrow) c hc)
  rw [Join.variableAtEnd?] at h
  split at h
  · rename_i parts hproperty
    rw [Option.some.injEq] at h
    subst h
    rw [hproperty, Option.isSome_some, Bool.true_and] at hdigit
    rcases Join.propertyAtEnd?_eq_some hproperty with
      ⟨name, arrow, rfl, hout, hisName, hbefore, harrow, hne⟩
    -- The property is a name, because it begins with no digit.
    have hall := all_takeEndWhile isIdentContinue out
    generalize out.takeEndWhile isIdentContinue = property at *
    have hisProperty : isName property = true := by
      rcases property with _ | ⟨c, property⟩
      · exact absurd rfl hne
      · have hc := List.all_eq_true.mp hall c List.mem_cons_self
        rw [List.head?_cons, Option.any_some] at hdigit
        rw [isIdentContinue, hdigit, Bool.or_false] at hc
        rw [isName, hall, List.head?_cons, Option.any_some, hc]
        rfl
    refine ⟨_, rfl, hout, hbefore, fun c hc => ?_, _, run_access hisName harrow hisProperty, rfl⟩
    rw [List.mem_append, List.mem_append] at hc
    rcases hc with hc | hc | hc
    · exact hname hisName c hc
    · exact harrows arrow harrow c hc
    · exact hname hisProperty c hc
  · rcases Join.nameAtEnd?_eq_some h with ⟨name, rfl, hout, hisName, hbefore⟩
    exact ⟨name, rfl, hout, hbefore, hname hisName, _, run_dollar hisName, rfl⟩

/-- A variable at the end says the same in braces. -/
theorem run_guardedVariable {before whole : Text}
    (h : Join.variableAtEnd? out = some (before, whole)) (hout : read quoted out = some left)
    (hbrace : ((run quoted .plain before).2.goesOn quoted '{').isSome = false)
    (hdigit : ((Join.propertyAtEnd? out).isSome &&
      (out.takeEndWhile isIdentContinue).head?.any Char.isDigit) = false) :
    run quoted .plain (before ++ '{' :: whole ++ ['}']) = (left, .plain) := by
  rcases @variable_of_end quoted _ _ _ h hdigit with
    ⟨code, rfl, rfl, hbefore, hplain, pending, hcode, hvalue⟩
  rcases read_eq_some hout with ⟨items, hflush, rfl⟩
  rw [List.append_cons, run_append] at hflush
  -- Nothing waits for its end behind the dollar sign, since it would still wait behind the name.
  have hopen : (run quoted .plain (before ++ ['$'])).2.isOpen = false := by
    refine Bool.eq_false_iff.mpr fun hopen => ?_
    have hstill := @isOpen_run quoted _ code hopen
      ⟨fun hmem => (hplain _ hmem).1 (by decide), fun hmem => (hplain _ hmem).2 rfl⟩
    rw [Pending.isOpen_of_flush hflush] at hstill
    exact absurd hstill Bool.false_ne_true
  rcases run_opening (.inl rfl) hbefore hopen with ⟨earlier, hearlier, hrun⟩
  have hdollar : begins '$' = ([], .dollar) := rfl
  have hopening : begins '{' = ([], .brace) := rfl
  rw [hrun, hdollar, hcode, hvalue] at hflush
  have hitems := Option.some.inj hflush
  have hstop : (run quoted .plain before).2.goesOn quoted '{' = none :=
    Option.not_isSome_iff_eq_none.mp (Bool.eq_false_iff.mp hbrace)
  rw [List.append_cons before '{', List.append_assoc, run_append, run_of_stop hearlier hstop,
    hopening,
    run_braced fun c hc => (hplain c hc).1, List.append_cons before '$', run_append, hrun, hdollar,
    hcode, ← hitems]
  simp only [List.append_nil]

/-! ## Joining -/

/-- A text that ends with nothing pending says what it says before anything else. -/
theorem read_of_run {text : Text} (hrun : run quoted .plain text = (left, .plain))
    (hpiece : read quoted piece = some right) :
    read quoted (text ++ piece) = some (left ++ right) := by
  rw [read, readFrom_append, hrun, show readFrom quoted .plain piece = some right from hpiece]
  rfl

/-- A left piece that is left as it is says what it says before the right piece: nothing that is
    pending at its end goes on there. -/
theorem readFrom_of_unguarded {c : Char} {rest : Text}
    (hflush : (run quoted .plain out).2.flush = some items)
    (hdollar : ¬ (out.getLast? == some '$' && !endsInEscape out.dropLast &&
      (isIdentStart c || c == '{')) = true)
    (hbrace : ¬ (out.getLast? == some '{' && c == '$') = true)
    (hvariable : Join.extendsVariable (c :: rest) = true → Join.variableAtEnd? out = none)
    (hstraddles : (run quoted .plain out).2.straddles quoted (c :: rest) = false) :
    readFrom quoted (run quoted .plain out).2 (c :: rest) =
      (read quoted (c :: rest)).map (items ++ ·) := by
  -- What is pending tells how the left piece ends, and each end has its guard.
  have hending := (@describes quoted out).ending
  generalize (run quoted .plain out).2 = pending at *
  cases pending with
  | escape | codepoint | index | code => exact absurd hflush (by simp only [Pending.flush,
      reduceCtorEq, not_false_eq_true])
  | plain => exact readFrom_of_stop hflush rfl
  | hex digits =>
    rw [Pending.straddles, List.head?_cons, Option.any_some] at hstraddles
    exact readFrom_of_stop hflush
      (Option.not_isSome_iff_eq_none.mp (Bool.eq_false_iff.mp hstraddles))
  | octal digits =>
    rw [Pending.straddles, List.head?_cons, Option.any_some] at hstraddles
    exact readFrom_of_stop hflush
      (Option.not_isSome_iff_eq_none.mp (Bool.eq_false_iff.mp hstraddles))
  | unicode =>
    rw [Pending.straddles, List.head?_cons, Option.any_some] at hstraddles
    exact readFrom_of_stop hflush
      (Option.not_isSome_iff_eq_none.mp (Bool.eq_false_iff.mp hstraddles))
  | dollar =>
    rcases hending with ⟨front, rfl, hfront⟩
    simp only [List.getLast?_concat, List.dropLast_concat, hfront, beq_self_eq_true, Bool.not_false,
      Bool.true_and, Bool.or_eq_true, not_or, beq_iff_eq] at hdollar
    refine readFrom_of_stop hflush ?_
    rw [Pending.goesOn, if_neg hdollar.1, if_neg hdollar.2]
  | brace =>
    rcases hending with ⟨front, rfl⟩
    simp only [List.getLast?_concat, beq_self_eq_true, Bool.true_and, beq_iff_eq] at hbrace
    refine readFrom_of_stop hflush ?_
    rw [Pending.goesOn, if_neg hbrace]
  | name word =>
    rcases hending with ⟨front, rfl, hname, hfront⟩
    -- A name at the end is a variable at the end, which what goes on would have been kept from.
    have hextends : Join.extendsVariable (c :: rest) = false := by
      refine Bool.eq_false_iff.mpr fun hextends => ?_
      have hnone := hvariable hextends
      rw [Join.variableAtEnd?, Join.nameAtEnd?_append hname hfront] at hnone
      split at hnone
      · exact absurd hnone (by simp only [reduceCtorEq, not_false_eq_true])
      · exact absurd hnone (by simp only [reduceCtorEq, not_false_eq_true])
    rw [← Option.some.inj (show some [Item.value ('$' :: word)] = some items from hflush)]
    exact readFrom_name hextends
  | arrow word seen =>
    rcases hending with ⟨front, rfl, hname, hfront, hne, hseen⟩
    rw [← Option.some.inj
      (show some (Item.value ('$' :: word) :: bytes seen) = some items from hflush)]
    exact readFrom_arrow hseen hstraddles
  | property access =>
    rcases hending with ⟨front, word, arrow, property, rfl, rfl, hname, hfront, harrow, hne, hall⟩
    have hextends : isIdentContinue c = false := by
      refine Bool.eq_false_iff.mpr fun hc => ?_
      have hnone := hvariable (Join.extendsVariable_cons hc)
      rw [Join.variableAtEnd?, Join.propertyAtEnd?_append hname hfront harrow hne hall] at hnone
      exact absurd hnone (by simp only [reduceCtorEq, not_false_eq_true])
    refine readFrom_of_stop hflush ?_
    rw [Pending.goesOn, if_neg (Bool.eq_false_iff.mp hextends)]

/-- Two pieces that meet at a border where neither changes what the other says, joined, say what the
    first says and then what the second says. -/
theorem read_push (hout : read quoted out = some left) (hpiece : read quoted piece = some right)
    (h : seamless quoted out piece = true) :
    read quoted (Join.push out piece) = some (left ++ right) := by
  rw [seamless, Bool.and_eq_true, Bool.not_eq_true', Bool.not_eq_true'] at h
  rcases h with ⟨hstraddles, hguards⟩
  rw [misguards, Bool.or_eq_false_iff] at hguards
  rcases hguards with ⟨hescaped, hvariable⟩
  unfold Join.push
  rcases piece with _ | ⟨c, rest⟩
  · have hright : some [] = some right := hpiece
    rw [← Option.some.inj hright, List.append_nil]
    exact hout
  dsimp only
  -- The cases are those of the guard: a dollar sign, a brace, and a variable at the end.
  unfold Join.guard
  by_cases hdollar : (out.getLast? == some '$' && !endsInEscape out.dropLast &&
      (isIdentStart c || c == '{')) = true
  · rw [if_pos hdollar]
    rw [Bool.and_eq_true, Bool.and_eq_true, beq_iff_eq, Bool.not_eq_true'] at hdollar
    rw [eq_concat_of_getLast? hdollar.1.1] at hout
    exact read_of_run (run_escapedDollar hdollar.1.2 hout) hpiece
  rw [if_neg hdollar]
  by_cases hbrace : (out.getLast? == some '{' && c == '$') = true
  · rw [if_pos hbrace]
    rw [Bool.and_eq_true, beq_iff_eq, beq_iff_eq] at hbrace
    have hfront : endsInEscape out.dropLast = false := by
      rw [hbrace.1, List.head?_cons, hbrace.2] at hescaped
      simpa only [beq_self_eq_true, Bool.true_and, Bool.and_true] using hescaped
    rw [eq_concat_of_getLast? hbrace.1] at hout
    exact read_of_run (run_escapedBrace hfront hout) hpiece
  rw [if_neg hbrace]
  -- Without a guard the piece is read on from where the text ended.
  have hunguarded
      (hnone : Join.extendsVariable (c :: rest) = true → Join.variableAtEnd? out = none) :
      read quoted (out ++ c :: rest) = some (left ++ right) := by
    rcases read_eq_some hout with ⟨items, hflush, rfl⟩
    rw [read, readFrom_append, readFrom_of_unguarded hflush hdollar hbrace hnone hstraddles, hpiece,
      Option.map_some, Option.map_some, List.append_assoc]
  by_cases hextends : Join.extendsVariable (c :: rest) = true
  · rw [if_pos hextends]
    rw [hextends, Bool.true_and, Bool.or_eq_false_iff] at hvariable
    rcases hfound : Join.variableAtEnd? out with _ | ⟨before, whole⟩
    · exact hunguarded fun _ => hfound
    · rw [hfound, Option.any_some] at hvariable
      exact read_of_run (run_guardedVariable hfound hout hvariable.1 hvariable.2) hpiece
  · rw [if_neg hextends]
    exact hunguarded fun h => absurd h hextends

/-- Whether pieces that are joined one after the other meet at such borders only. -/
def allSeamless (quoted : Bool) : Text → List Text → Bool
  | _, [] => true
  | out, piece :: more =>
    seamless quoted out piece && allSeamless quoted (Join.push out piece) more

/-- Any number of pieces that are joined one after the other, and meet at borders where none changes
    what another says, say what each of them says, in order. -/
theorem read_pushes {pieces : List Text} {meaning : Text → List Item}
    (hout : read quoted out = some left)
    (hpieces : ∀ piece ∈ pieces, read quoted piece = some (meaning piece))
    (h : allSeamless quoted out pieces = true) :
    read quoted (pieces.foldl Join.push out) = some (left ++ pieces.flatMap meaning) := by
  induction pieces generalizing out left with
  | nil =>
    rw [List.foldl_nil, List.flatMap_nil, List.append_nil]
    exact hout
  | cons piece more ih =>
    rw [allSeamless, Bool.and_eq_true] at h
    have hjoined := read_push hout (hpieces piece List.mem_cons_self) h.1
    have hmore := ih hjoined (fun it hit => hpieces it (List.mem_cons_of_mem _ hit)) h.2
    rw [List.foldl_cons, hmore, List.flatMap_cons, List.append_assoc]

/-- A dollar sign before a variable in braces, a name behind a variable, and an index behind it. -/
theorem read_pushes_prices :
    read false "cost: $".toList = some (bytes "cost: $".toList) ∧
      allSeamless false "cost: $".toList ["{$x}".toList, "$a".toList, "bc".toList, "[0]".toList] =
        true ∧
      read false (["{$x}".toList, "$a".toList, "bc".toList, "[0]".toList].foldl Join.push
          "cost: $".toList) =
        some (bytes "cost: $".toList ++ (.value "$x".toList :: .value "$a".toList ::
          bytes "bc[0]".toList)) := by
  obtain ⟨hout, hseamless, hpieces⟩ :
      read false "cost: $".toList = some (bytes "cost: $".toList) ∧
      allSeamless false "cost: $".toList
        ["{$x}".toList, "$a".toList, "bc".toList, "[0]".toList] = true ∧
      ∀ piece ∈ ["{$x}".toList, "$a".toList, "bc".toList, "[0]".toList],
        read false piece = some ((read false piece).getD []) := by
    decide +kernel
  have hread := read_pushes hout hpieces hseamless
  exact ⟨hout, hseamless, hread.trans (by decide +kernel)⟩

/-- An arrow behind a variable, and a name joined to it: apart they are a variable and three
    characters, joined they are a property. -/
theorem arrow_across_border :
    read false "$a->".toList = some (.value "$a".toList :: bytes "->".toList) ∧
      read false "b".toList = some (bytes "b".toList) ∧
      read false (Join.push "$a->".toList "b".toList) = some [.value "$a->b".toList] := by
  decide +kernel

end Body

end PhpAssist

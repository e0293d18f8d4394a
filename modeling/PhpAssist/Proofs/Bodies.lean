import PhpAssist.Proofs.TextEnds
import PhpAssist.Token.Quoted

/-!
# What a body says

The body of a string in double quotes or of a heredoc says bytes and values, in an order. It is read
one character at a time. What a character means depends on what is pending: behind a backslash it is
escaped, behind a dollar sign it may begin a name, and a name goes on for as long as it can, with one
index or one property behind it. Where a character does not go on with what is pending, what is
pending stands for what it says so far, and the character begins anew.

A variable in braces and a variable without them say the same. At the end of a body nothing may be
left open: no backslash without a character, no index and no braces without their end.

## Main definitions

* `Body.Item`: What a piece of a body says.
* `Body.Pending`: What the next character may go on with.
* `Body.Pending.goesOn`: How a character goes on with what is pending.
* `Body.Pending.flush`: What is said by what is pending, if it may end here.
* `Body.run`, `Body.read`: Reading a body.

## Theorems

* `Body.run_append`: Reading goes on where it stopped.
* `Body.readFrom_of_stop`: What does not go on is said before the rest.
* `Body.Pending.Describes`: What is pending is the end of what was read.
-/

namespace PhpAssist

open Text

namespace Body

/-- What a piece of a body says: a byte, the value of a variable or of an access, an element of an
    array whose key is written without quotes, or a variable whose name is computed. -/
inductive Item where
  | byte (value : UInt8)
  | value (code : Text)
  | element (code : Text)
  | named (code : Text)
  deriving DecidableEq

/-- Characters that stand for themselves. -/
def bytes (text : Text) : List Item :=
  text.flatMap fun c => (String.utf8EncodeChar c).map Item.byte

/-- What the next character may go on with. -/
inductive Pending where
  | plain
  | escape
  | hex (digits : Text)
  | octal (digits : Text)
  | unicode
  | codepoint (digits : Text)
  | dollar
  | brace
  | name (word : Text)
  | arrow (word seen : Text)
  | property (access : Text)
  | index (access : Text)
  | code (isNamed : Bool) (inside : Text)
  deriving DecidableEq

/-- A digit behind `\x`. -/
def isHex (c : Char) : Bool :=
  c.isDigit || ('a' ≤ c && c ≤ 'f') || ('A' ≤ c && c ≤ 'F')

/-- A digit of an octal escape. -/
def isOctal (c : Char) : Bool := '0' ≤ c && c ≤ '7'

/-- The number that some digits write. -/
def number (base : Nat) (digits : Text) : Nat :=
  digits.foldl (fun value c =>
    base * value + if c.isDigit then c.toNat - '0'.toNat else c.toLower.toNat - 'a'.toNat + 10) 0

/-- What an escaped character says. An escaped quote is one character only between quotes. -/
def escaped (quoted : Bool) (c : Char) : List Item :=
  match c with
  | 'n' => [.byte 10]
  | 't' => [.byte 9]
  | 'r' => [.byte 13]
  | 'v' => [.byte 11]
  | 'e' => [.byte 27]
  | 'f' => [.byte 12]
  | '\\' | '$' => bytes [c]
  | '"' => if quoted then bytes [c] else bytes ['\\', c]
  | _ => bytes ['\\', c]

/-- What a character says by itself, and what is pending behind it. -/
def begins (c : Char) : List Item × Pending :=
  if c = '\\' then ([], .escape)
  else if c = '$' then ([], .dollar)
  else if c = '{' then ([], .brace)
  else (bytes [c], .plain)

namespace Pending

/-- How a character goes on with what is pending: what is said then, and what is pending behind it.
    `none` where the character does not go on with it. -/
def goesOn (quoted : Bool) (c : Char) : Pending → Option (List Item × Pending)
  | .plain => none
  | .escape =>
    if c = 'x' then some ([], .hex [])
    else if c = 'u' then some ([], .unicode)
    else if isOctal c then some ([], .octal [c])
    else some (escaped quoted c, .plain)
  | .hex digits =>
    if !isHex c then none
    else if digits = [] then some ([], .hex [c])
    else some ([.byte (.ofNat (number 16 (digits ++ [c])))], .plain)
  | .octal digits =>
    if !isOctal c then none
    else if digits.length < 2 then some ([], .octal (digits ++ [c]))
    else some ([.byte (.ofNat (number 8 (digits ++ [c])))], .plain)
  | .unicode => if c = '{' then some ([], .codepoint []) else none
  | .codepoint digits =>
    if c = '}' then some (bytes [.ofNat (number 16 digits)], .plain)
    else some ([], .codepoint (digits ++ [c]))
  | .dollar =>
    if isIdentStart c then some ([], .name [c])
    else if c = '{' then some ([], .code true [])
    else none
  | .brace => if c = '$' then some ([], .code false ['$']) else none
  | .name word =>
    if isIdentContinue c then some ([], .name (word ++ [c]))
    else if c = '[' then some ([], .index ('$' :: (word ++ ['['])))
    else if c = '-' ∨ c = '?' then some ([], .arrow word [c])
    else none
  | .arrow word seen =>
    if seen ∈ Join.arrows ∧ isIdentStart c then some ([], .property ('$' :: (word ++ (seen ++ [c]))))
    else if Join.arrows.any fun arrow => (seen ++ [c]).isPrefixOf arrow then
      some ([], .arrow word (seen ++ [c]))
    else none
  | .property access =>
    if isIdentContinue c then some ([], .property (access ++ [c])) else none
  | .index access =>
    if c = ']' then some ([.element (access ++ [c])], .plain) else some ([], .index (access ++ [c]))
  | .code isNamed inside =>
    -- Braces nest, and braces in strings in the code do not count.
    if c = '}' ∧ (Quoted.close [.braces 1] (inside ++ [c])).closed then
      some ([if isNamed then .named inside else .value inside], .plain)
    else some ([], .code isNamed (inside ++ [c]))

/-- What is said by what is pending, where nothing goes on with it; `none` where it has to go on. -/
def flush : Pending → Option (List Item)
  | .plain => some []
  | .escape | .codepoint _ | .index _ | .code _ _ => none
  | .hex digits =>
    some (if digits = [] then bytes ['\\', 'x'] else [.byte (.ofNat (number 16 digits))])
  | .octal digits => some [.byte (.ofNat (number 8 digits))]
  | .unicode => some (bytes ['\\', 'u'])
  | .dollar => some (bytes ['$'])
  | .brace => some (bytes ['{'])
  | .name word => some [.value ('$' :: word)]
  | .arrow word seen => some (.value ('$' :: word) :: bytes seen)
  | .property access => some [.value access]

/-- Reads a character. -/
def step (quoted : Bool) (pending : Pending) (c : Char) : List Item × Pending :=
  match pending.goesOn quoted c with
  | some next => next
  | none => (pending.flush.getD [] ++ (begins c).1, (begins c).2)

end Pending

/-- Reads characters: what they say, and what is pending behind them. -/
def run (quoted : Bool) : Pending → Text → List Item × Pending
  | pending, [] => ([], pending)
  | pending, c :: rest =>
    let next := pending.step quoted c
    (next.1 ++ (run quoted next.2 rest).1, (run quoted next.2 rest).2)

/-- What a text says behind what is pending, if nothing is left open at its end. -/
def readFrom (quoted : Bool) (pending : Pending) (text : Text) : Option (List Item) :=
  (run quoted pending text).2.flush.map ((run quoted pending text).1 ++ ·)

/-- What a body says, if nothing is left open at its end. -/
def read (quoted : Bool) (text : Text) : Option (List Item) := readFrom quoted .plain text

variable {quoted : Bool} {pending : Pending}

/-- Reading goes on where it stopped. -/
theorem run_append (pending : Pending) (text more : Text) :
    run quoted pending (text ++ more) =
      ((run quoted pending text).1 ++ (run quoted (run quoted pending text).2 more).1,
        (run quoted (run quoted pending text).2 more).2) := by
  induction text generalizing pending with
  | nil => rfl
  | cons c text ih => simp only [List.cons_append, run, ih, List.append_assoc]

theorem run_concat (pending : Pending) (text : Text) (c : Char) :
    run quoted pending (text ++ [c]) =
      ((run quoted pending text).1 ++ ((run quoted pending text).2.step quoted c).1,
        ((run quoted pending text).2.step quoted c).2) := by
  rw [run_append, run, run, List.append_nil]

theorem readFrom_append (pending : Pending) (text more : Text) :
    readFrom quoted pending (text ++ more) =
      (readFrom quoted (run quoted pending text).2 more).map
        ((run quoted pending text).1 ++ ·) := by
  rw [readFrom, readFrom, run_append, Option.map_map]
  refine congrArg (Option.map · _) (funext fun items => ?_)
  rw [List.append_assoc]
  rfl

/-! ## What is pending at the end of a text -/

/-- Nothing begins with a character of an arrow. -/
theorem plain_of_arrow {arrow seen : Text} {c : Char} (harrow : arrow ∈ Join.arrows)
    (h : seen ++ [c] <+: arrow) : c ≠ '\\' ∧ c ≠ '$' ∧ c ≠ '{' := by
  have hall : (Join.arrows.all fun arrow => arrow.all fun c => c ≠ '\\' ∧ c ≠ '$' ∧ c ≠ '{') =
      true := by
    decide
  have hc : c ∈ arrow := h.subset (List.mem_append_right _ (List.mem_singleton_self c))
  exact of_decide_eq_true (List.all_eq_true.mp (List.all_eq_true.mp hall arrow harrow) c hc)

namespace Pending

/-- The end of a text that is pending. -/
def EndOf (text : Text) : Pending → Prop
  | .dollar => ∃ front, text = front ++ ['$'] ∧ endsInEscape front = false
  | .brace => ∃ front, text = front ++ ['{']
  | .name word => ∃ front, text = front ++ '$' :: word ∧ isName word = true ∧
      endsInEscape front = false
  | .arrow word seen => ∃ front, text = front ++ '$' :: (word ++ seen) ∧ isName word = true ∧
      endsInEscape front = false ∧ seen ≠ [] ∧ ∃ arrow ∈ Join.arrows, seen <+: arrow
  | .property access => ∃ front word arrow property,
      access = '$' :: (word ++ (arrow ++ property)) ∧ text = front ++ access ∧
      isName word = true ∧ endsInEscape front = false ∧ arrow ∈ Join.arrows ∧ property ≠ [] ∧
      property.all isIdentContinue = true
  | _ => True

/-- What is pending is the end of a text: behind an escape the text ends in one, and what may end
    here does not. -/
structure Describes (pending : Pending) (text : Text) : Prop where
  unescaped : pending.flush.isSome = true → endsInEscape text = false
  escaped : pending = .escape → endsInEscape text = true
  ending : pending.EndOf text

theorem describes_plain : Describes .plain [] :=
  ⟨fun _ => rfl, fun h => absurd h (by simp only [reduceCtorEq, not_false_eq_true]), trivial⟩

/-- What stops may end. -/
theorem flush_of_stops {c : Char} (h : pending.goesOn quoted c = none) :
    ∃ items, pending.flush = some items := by
  revert h
  fun_cases goesOn quoted c pending
  all_goals
    first
    | exact fun _ => ⟨_, rfl⟩
    | exact nofun

theorem describes_begins {text : Text} (h : endsInEscape text = false) (c : Char) :
    Describes (begins c).2 (text ++ [c]) := by
  unfold begins
  by_cases hescape : c = '\\'
  · rw [if_pos hescape]
    refine ⟨fun h => absurd h Bool.false_ne_true, fun _ => ?_, trivial⟩
    rw [endsInEscape_concat, if_pos hescape, h]
    rfl
  rw [if_neg hescape]
  -- Any other character ends an escape, whatever it begins.
  have hunescaped : endsInEscape (text ++ [c]) = false := endsInEscape_of_ne hescape
  by_cases hdollar : c = '$'
  · rw [if_pos hdollar]
    exact ⟨fun _ => hunescaped, nofun, text, by rw [hdollar], h⟩
  rw [if_neg hdollar]
  by_cases hbrace : c = '{'
  · rw [if_pos hbrace]
    exact ⟨fun _ => hunescaped, nofun, text, by rw [hbrace]⟩
  rw [if_neg hbrace]
  exact ⟨fun _ => hunescaped, nofun, trivial⟩

/-- A character that is no backslash and goes on with what is pending. -/
theorem Describes.of_ne {text : Text} {c : Char} {next : Pending} (hc : c ≠ '\\')
    (hnext : next ≠ .escape) (hending : next.EndOf (text ++ [c])) : Describes next (text ++ [c]) :=
  ⟨fun _ => endsInEscape_of_ne hc, fun h => absurd h hnext, hending⟩

theorem describes_goesOn {text : Text} {c : Char} {next : List Item × Pending}
    (h : Describes pending text) (hnext : pending.goesOn quoted c = some next) :
    Describes next.2 (text ++ [c]) := by
  have hclass {p : Char → Bool} (hp : p '\\' = false) (hc : p c = true) : c ≠ '\\' := by
    rintro rfl
    exact absurd (hc.symm.trans hp) (by decide)
  have hstart (hc : isIdentStart c = true) : c ≠ '\\' := hclass (by decide) hc
  have hcontinue (hc : isIdentContinue c = true) : c ≠ '\\' := hclass (by decide) hc
  rcases h with ⟨hunescaped, hescaped, hending⟩
  revert hnext
  fun_cases goesOn quoted c pending with
  | case1 | case6 | case9 | case13 | case18 | case20 | case24 | case27 | case29 => exact nofun
  -- What is pending says nothing about the text in front.
  | case12 | case15 | case17 | case19 | case22 | case31 | case33 =>
    rintro ⟨⟩
    exact ⟨fun h => absurd h Bool.false_ne_true, nofun, trivial⟩
  | case2 | case3 | case4 | case5 =>
    -- Behind an escape no backslash escapes anything.
    rintro ⟨⟩
    refine ⟨fun _ => ?_, nofun, trivial⟩
    rw [endsInEscape_concat, hescaped rfl, Bool.not_true, ite_self]
  | case7 hc =>
    rintro ⟨⟩
    rw [Bool.not_eq_true, Bool.not_eq_false'] at hc
    exact .of_ne (hclass (by decide) hc) nofun trivial
  | case8 _ hc | case10 _ hc | case11 _ hc =>
    rintro ⟨⟩
    rw [Bool.not_eq_true, Bool.not_eq_false'] at hc
    exact .of_ne (hclass (by decide) hc) nofun trivial
  | case14 _ hc | case30 _ hc =>
    rintro ⟨⟩
    exact .of_ne (by rw [hc]; decide) nofun trivial
  | case32 _ _ hc =>
    rintro ⟨⟩
    exact .of_ne (by rw [hc.1]; decide) nofun trivial
  -- A name, an arrow and a property each grow by the character, and the front stays.
  | case16 hc =>
    rintro ⟨⟩
    rcases hending with ⟨front, rfl, hfront⟩
    exact .of_ne (hstart hc) nofun
      ⟨front, by rw [List.append_assoc]; rfl, isName_singleton hc, hfront⟩
  | case21 word hc =>
    rintro ⟨⟩
    rcases hending with ⟨front, rfl, hname, hfront⟩
    exact .of_ne (hcontinue hc) nofun
      ⟨front, by rw [List.append_assoc]; rfl, isName_append hname (by rw [List.all_cons, hc]; rfl),
        hfront⟩
  | case23 word _ _ hc =>
    rintro ⟨⟩
    rcases hending with ⟨front, rfl, hname, hfront⟩
    refine .of_ne (by rcases hc with rfl | rfl <;> decide) nofun
      ⟨front, by rw [List.append_assoc]; rfl, hname, hfront, List.cons_ne_nil _ _, ?_⟩
    rcases hc with rfl | rfl
    · exact ⟨['-', '>'], by decide, by decide⟩
    · exact ⟨['?', '-', '>'], by decide, by decide⟩
  | case25 word seen hc =>
    rintro ⟨⟩
    rcases hending with ⟨front, rfl, hname, hfront, _, _⟩
    refine .of_ne (hstart hc.2) nofun ⟨front, word, seen, [c], rfl, ?_, hname, hfront, hc.1,
      List.cons_ne_nil _ _, ?_⟩
    · simp only [List.append_assoc, List.cons_append]
    · rw [List.all_cons, List.all_nil, isIdentContinue_of_start hc.2]
      rfl
  | case26 word seen _ hc =>
    rintro ⟨⟩
    rcases hending with ⟨front, rfl, hname, hfront, _, _⟩
    rcases List.any_eq_true.mp hc with ⟨arrow, harrow, hseen⟩
    rw [List.isPrefixOf_iff_prefix] at hseen
    refine .of_ne (plain_of_arrow harrow hseen).1 nofun ⟨front, ?_, hname, hfront,
      List.append_ne_nil_of_right_ne_nil _ (List.cons_ne_nil _ _), arrow, harrow, hseen⟩
    simp only [List.append_assoc, List.cons_append]
  | case28 access hc =>
    rintro ⟨⟩
    rcases hending with ⟨front, word, arrow, property, rfl, rfl, hname, hfront, harrow, hne, hall⟩
    refine .of_ne (hcontinue hc) nofun ⟨front, word, arrow, property ++ [c], ?_, ?_, hname, hfront,
      harrow, List.append_ne_nil_of_left_ne_nil hne _, ?_⟩
    · simp only [List.append_assoc, List.cons_append]
    · simp only [List.append_assoc, List.cons_append]
    · rw [List.all_append, hall, List.all_cons, List.all_nil, hc]
      rfl

theorem describes_step {text : Text} (h : Describes pending text) (c : Char) :
    Describes (pending.step quoted c).2 (text ++ [c]) := by
  unfold step
  rcases hnext : pending.goesOn quoted c with _ | next
  · rcases flush_of_stops hnext with ⟨items, hitems⟩
    exact describes_begins (h.unescaped (by rw [hitems]; rfl)) c
  · exact describes_goesOn h hnext

end Pending

/-- What is pending behind a text is the end of it. -/
theorem describes_run {text : Text} (h : pending.Describes text) (more : Text) :
    (run quoted pending more).2.Describes (text ++ more) := by
  induction more generalizing pending text with
  | nil =>
    rw [List.append_nil]
    exact h
  | cons c more ih =>
    have hmore := ih (@Pending.describes_step quoted _ _ h c)
    rwa [List.append_assoc] at hmore

theorem describes (text : Text) : (run quoted .plain text).2.Describes text :=
  describes_run Pending.describes_plain text

/-! ## What stops -/

variable {items : List Item} {piece : Text}

theorem readFrom_nil (hflush : pending.flush = some items) :
    readFrom quoted pending [] = (read quoted []).map (items ++ ·) := by
  have hread : read quoted [] = some [] := rfl
  have hfrom : readFrom quoted pending [] = pending.flush.map ([] ++ ·) := rfl
  rw [hread, hfrom, hflush, Option.map_some, Option.map_some, List.append_nil]
  rfl

theorem readFrom_cons (pending : Pending) (c : Char) (rest : Text) :
    readFrom quoted pending (c :: rest) =
      (readFrom quoted (pending.step quoted c).2 rest).map ((pending.step quoted c).1 ++ ·) := by
  have happend := @readFrom_append quoted pending [c] rest
  rw [run, run, List.append_nil] at happend
  exact happend

/-- A character that does not go on with what is pending begins anew behind it. -/
theorem readFrom_of_stop {c : Char} {rest : Text} (hflush : pending.flush = some items)
    (hstop : pending.goesOn quoted c = none) :
    readFrom quoted pending (c :: rest) = (read quoted (c :: rest)).map (items ++ ·) := by
  have hstep : pending.step quoted c = (items ++ (begins c).1, (begins c).2) := by
    unfold Pending.step
    rw [hstop, hflush]
    rfl
  -- Behind what was flushed the character begins anew, as it does at the start.
  have hplain : Pending.plain.step quoted c = begins c := rfl
  rw [read, readFrom_cons, readFrom_cons, hstep, hplain, Option.map_map]
  refine congrArg (Option.map · _) (funext fun more => ?_)
  rw [List.append_assoc]
  rfl

theorem bytes_append (text more : Text) : bytes (text ++ more) = bytes text ++ bytes more :=
  List.flatMap_append

/-- A character that nothing special begins with stands for itself. -/
theorem read_cons {c : Char} (hc : c ≠ '\\' ∧ c ≠ '$' ∧ c ≠ '{') (rest : Text) :
    read quoted (c :: rest) = (read quoted rest).map (bytes [c] ++ ·) := by
  have hbegins : Pending.plain.step quoted c = (bytes [c], .plain) := by
    rw [show Pending.plain.step quoted c = begins c from rfl, begins, if_neg hc.1, if_neg hc.2.1,
      if_neg hc.2.2]
  rw [read, readFrom_cons, hbegins]
  rfl

/-- Whether an arrow, of which a part was seen, is completed by a piece, with a name behind it. -/
def completesArrow (seen piece : Text) : Bool :=
  Join.arrows.any fun arrow =>
    arrow.isPrefixOf (seen ++ piece) && ((seen ++ piece).drop arrow.length).head?.any isIdentStart

/-- An arrow that no name comes behind is no part of an access. -/
theorem readFrom_arrow {word seen : Text} (hseen : ∃ arrow ∈ Join.arrows, seen <+: arrow)
    (h : completesArrow seen piece = false) :
    readFrom quoted (.arrow word seen) piece =
      (read quoted piece).map ((.value ('$' :: word) :: bytes seen) ++ ·) := by
  -- The arrow is followed for as long as the piece goes on with it.
  induction piece generalizing seen with
  | nil => exact readFrom_nil rfl
  | cons c rest ih =>
    by_cases hnamed : seen ∈ Join.arrows ∧ isIdentStart c = true
    · have hcompletes : completesArrow seen (c :: rest) = true := by
        refine List.any_eq_true.mpr ⟨seen, hnamed.1, ?_⟩
        rw [List.isPrefixOf_iff_prefix.mpr (List.prefix_append _ _), List.drop_left]
        exact hnamed.2
      exact absurd (hcompletes.symm.trans h) (by decide)
    by_cases hmore : (Join.arrows.any fun arrow => (seen ++ [c]).isPrefixOf arrow) = true
    · rcases List.any_eq_true.mp hmore with ⟨arrow, harrow, hprefix⟩
      rw [List.isPrefixOf_iff_prefix] at hprefix
      have hstep : (Pending.arrow word seen).step quoted c = ([], .arrow word (seen ++ [c])) := by
        unfold Pending.step
        rw [Pending.goesOn, if_neg hnamed, if_pos hmore]
      have hrest : completesArrow (seen ++ [c]) rest = false := by
        rw [← h, completesArrow, completesArrow, List.append_assoc]
        rfl
      rw [readFrom_cons, hstep, ih ⟨arrow, harrow, hprefix⟩ hrest,
        read_cons (plain_of_arrow harrow hprefix),
        Option.map_map, Option.map_map, bytes_append]
      refine congrArg (Option.map · _) (funext fun more => ?_)
      simp only [Function.comp_apply, List.nil_append, List.cons_append, List.append_assoc]
    · refine readFrom_of_stop rfl ?_
      rw [Pending.goesOn, if_neg hnamed, if_neg hmore]

/-- A piece that completes an arrow goes on with a variable. -/
theorem extendsVariable_of_completesArrow (h : completesArrow [] piece = true) :
    Join.extendsVariable piece = true := by
  rcases List.any_eq_true.mp h with ⟨arrow, harrow, hprefix⟩
  rw [Bool.and_eq_true, List.nil_append, List.isPrefixOf_iff_prefix] at hprefix
  rcases hprefix.1 with ⟨rest, rfl⟩
  simp only [Join.arrows, List.mem_cons, List.not_mem_nil, or_false] at harrow
  rcases harrow with rfl | rfl <;> rfl

/-- A name that a piece does not go on with is a variable by itself. -/
theorem readFrom_name {word : Text} (h : Join.extendsVariable piece = false) :
    readFrom quoted (.name word) piece = (read quoted piece).map ([.value ('$' :: word)] ++ ·) := by
  rcases piece with _ | ⟨c, rest⟩
  · exact readFrom_nil rfl
  -- The three ways to go on behind a name are excluded.
  by_cases hcontinue : isIdentContinue c = true
  · have hextends := @Join.extendsVariable_cons c rest hcontinue
    exact absurd (hextends.symm.trans h) (by decide)
  by_cases hindex : c = '['
  · rw [hindex] at h
    exact absurd (show true = false from h) (by decide)
  by_cases harrow : c = '-' ∨ c = '?'
  · -- What may become an arrow is put aside first, and given back as it turns out to be none.
    have hstep : (Pending.name word).step quoted c = ([], .arrow word [c]) := by
      unfold Pending.step
      rw [Pending.goesOn, if_neg hcontinue, if_neg hindex, if_pos harrow]
    have hrest : completesArrow [c] rest = false := by
      refine Bool.eq_false_iff.mpr fun hcompletes => ?_
      have hextends := @extendsVariable_of_completesArrow (c :: rest) hcompletes
      exact absurd (hextends.symm.trans h) (by decide)
    have hprefix : ∃ arrow ∈ Join.arrows, [c] <+: arrow := by
      rcases harrow with rfl | rfl
      · exact ⟨['-', '>'], by decide, by decide⟩
      · exact ⟨['?', '-', '>'], by decide, by decide⟩
    have hplain : c ≠ '\\' ∧ c ≠ '$' ∧ c ≠ '{' := by
      rcases harrow with rfl | rfl <;> decide
    rw [readFrom_cons, hstep, readFrom_arrow hprefix hrest, read_cons hplain, Option.map_map,
      Option.map_map]
    rfl
  · refine readFrom_of_stop rfl ?_
    rw [Pending.goesOn, if_neg hcontinue, if_neg hindex, if_neg harrow]

end Body

end PhpAssist

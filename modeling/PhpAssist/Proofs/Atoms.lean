import PhpAssist.Proofs.HeredocQuotes
import PhpAssist.Proofs.Lexes
import PhpAssist.Proofs.Settled

/-!
# What escapes stand for

In a body a backslash belongs to the character behind it, whatever that is, and every other
character stands by itself. Read in such atoms, the ways of writing a text and of rewriting a body
do one thing to each atom and never look at two of them together. What a body says is the same
reading, with only some of the escapes undone, so that a way of rewriting keeps what is said as soon
as it does so for one atom.

What has to be seen is that the atoms of what was written are the atoms that were written: a
backslash that ends up in front of something it did not belong to would change them. No way of
writing leaves a backslash alone unless nothing is behind it.

## Main definitions

* `Escape.Atom`, `Escape.atoms`: A body in atoms.
* `Escape.decodeDouble`, `Escape.decodeHeredoc`: What a body says in double quotes and in a heredoc.

## Theorems

* `Escape.atoms_append`: The atoms of two bodies, one behind the other.
* `Escape.atoms_escape`, `Escape.atoms_heredocOfDouble`, `Escape.atoms_doubleOfHeredoc`: The atoms
  of what is written.
* `Escape.lexing_quoted`: What leaves a string open is one token between quotes.
* `Escape.decode_conversions`: What is written says what it was written from.
-/

namespace PhpAssist

open Text

namespace Escape

/-- A backslash with the character behind it, or a character by itself. -/
inductive Atom where
  | pair (c : Char)
  | single (c : Char)
  deriving DecidableEq

namespace Atom

/-- An atom as it is written. -/
def text : Atom → Text
  | pair c => ['\\', c]
  | single c => [c]

/-- What an atom says where a backslash escapes just some characters. -/
def said (escapable : Char → Bool) : Atom → Text
  | pair c => if escapable c then [c] else ['\\', c]
  | single c => [c]

/-- What an atom of double quotes becomes in a heredoc. -/
def unquoted : Atom → Atom
  | pair c => if c = '"' then single c else pair c
  | single c => single c

/-- What an atom of a heredoc becomes in double quotes. -/
def quoted : Atom → List Atom
  | pair c => if c = '"' then [pair '\\', pair c] else [pair c]
  | single c => if c = '"' then [pair c] else [single c]

end Atom

/-- The atoms of a body. A backslash with nothing behind it stands by itself. -/
def atoms : Text → List Atom
  | [] => []
  | '\\' :: c :: rest => .pair c :: atoms rest
  | c :: rest => .single c :: atoms rest

/-- What a body says where a backslash escapes just some characters. -/
def decode (escapable : Char → Bool) (body : Text) : Text :=
  (atoms body).flatMap (Atom.said escapable)

/-- What a body says in double quotes, where backslashes, dollar signs and quotes are escaped. -/
def decodeDouble (body : Text) : Text := decode (fun c => c == '\\' || c == '"' || c == '$') body

/-- What a body says in a heredoc, where quotes are not escaped. -/
def decodeHeredoc (body : Text) : Text := decode (fun c => c == '\\' || c == '$') body

/-! ## Atoms -/

@[simp] theorem atoms_nil : atoms [] = [] := rfl

@[simp] theorem atoms_pair (c : Char) (rest : Text) :
    atoms ('\\' :: c :: rest) = .pair c :: atoms rest := rfl

theorem atoms_single {c : Char} (hc : c ≠ '\\') (rest : Text) :
    atoms (c :: rest) = .single c :: atoms rest := by
  rw [atoms]
  rintro _ _ rfl
  exact absurd rfl hc

/-- The atoms of a body are its text. -/
theorem flatMap_text_atoms (body : Text) : (atoms body).flatMap Atom.text = body := by
  fun_induction atoms body with
  | case1 => rfl
  | case2 c rest ih =>
    rw [List.flatMap_cons, ih, Atom.text, List.cons_append, List.singleton_append]
  | case3 c rest _ ih => rw [List.flatMap_cons, ih, Atom.text, List.singleton_append]

/-- A body whose last character is not escaping leaves the atoms behind it as they are. -/
theorem atoms_append {body : Text} (h : endsInEscape body = false) (more : Text) :
    atoms (body ++ more) = atoms body ++ atoms more := by
  fun_induction atoms body with
  | case1 => rfl
  | case2 c rest ih =>
    have hpair : endsInEscape ['\\', c] = false := (Join.Settled.escaped c).unescaped
    rw [List.cons_append, List.cons_append, atoms_pair, List.cons_append, ih]
    rw [← h]
    exact (endsInEscape_append hpair rest).symm
  | case3 c rest hpair ih =>
    -- A backslash would escape the next character, or be the last one, which is excluded.
    have hc : c ≠ '\\' := by
      rintro rfl
      rcases rest with _ | ⟨next, rest⟩
      · exact absurd h (by decide)
      · exact hpair next rest rfl rfl
    rw [List.cons_append, atoms_single hc, List.cons_append, ih]
    rw [← h]
    exact (endsInEscape_append (@endsInEscape_of_ne [] c hc) rest).symm

/-! ## Ways of writing -/

/-- Where the backslash is escaped itself, every character that is written is an atom. -/
theorem atoms_escape {special : Char → Bool} (hslash : special '\\' = true) (text : Text) :
    atoms (escape special text) = text.map fun c => if special c then .pair c else .single c := by
  induction text with
  | nil => rfl
  | cons c text ih =>
    rw [escape, List.map_cons]
    by_cases hc : special c
    · rw [if_pos hc, if_pos hc, atoms_pair, ih]
    · have hne : c ≠ '\\' := by
        rintro rfl
        exact hc hslash
      rw [if_neg hc, if_neg hc, atoms_single hne, ih]

/-- What is escaped says what it was escaped from, if the same characters are escaped. -/
theorem decode_escape {special : Char → Bool} (hslash : special '\\' = true) (text : Text) :
    decode special (escape special text) = text := by
  -- A backslash is written just where reading takes one away.
  have hsaid : ∀ c, (if special c then Atom.pair c else .single c).said special = [c] := by
    intro c
    by_cases hc : special c
    · rw [if_pos hc, Atom.said, if_pos hc]
    · rw [if_neg hc, Atom.said]
  rw [decode, atoms_escape hslash, List.flatMap_map]
  simp only [hsaid, List.flatMap_singleton']

/-- No special character stands by itself in what is escaped. -/
theorem special_of_single {special : Char → Bool} (hslash : special '\\' = true) {text : Text}
    {c : Char} (h : .single c ∈ atoms (escape special text)) : special c = false := by
  rw [atoms_escape hslash, List.mem_map] at h
  rcases h with ⟨written, -, hatom⟩
  by_cases hc : special written
  · rw [if_pos hc] at hatom
    exact absurd hatom nofun
  · rw [if_neg hc, Atom.single.injEq] at hatom
    rwa [← hatom, ← Bool.not_eq_true]

/-- What an escaped quote becomes in a heredoc, its quote, escapes nothing. -/
theorem atoms_heredocOfDouble (body : Text) :
    atoms (heredocOfDouble body) = (atoms body).map Atom.unquoted := by
  fun_induction heredocOfDouble body with
  | case1 => rfl
  | case2 rest ih => rw [atoms_single (by decide), ih, atoms_pair, List.map_cons]; rfl
  -- Only the escape of the quote is dropped.
  | case3 c rest hquote ih =>
    have hc : c ≠ '"' := fun heq => hquote heq
    rw [atoms_pair, ih, atoms_pair, List.map_cons, Atom.unquoted, if_neg hc]
  | case4 c rest _ hpair ih =>
    by_cases hslash : c = '\\'
    · -- Nothing is behind the backslash.
      rcases rest with _ | ⟨next, rest⟩
      · rw [hslash]
        rfl
      · exact absurd rfl (hpair next rest hslash)
    · rw [atoms_single hslash, ih, atoms_single hslash, List.map_cons, Atom.unquoted]

theorem atoms_doubleOfHeredoc (body : Text) :
    atoms (doubleOfHeredoc body) = (atoms body).flatMap Atom.quoted := by
  fun_induction doubleOfHeredoc body with
  | case1 => rfl
  | case2 rest ih => rw [atoms_pair, atoms_pair, ih, atoms_pair, List.flatMap_cons]; rfl
  | case3 c rest hquote ih =>
    have hc : c ≠ '"' := fun heq => hquote heq
    rw [atoms_pair, ih, atoms_pair, List.flatMap_cons, Atom.quoted, if_neg hc,
      List.singleton_append]
  -- A bare quote gets the escape.
  | case4 rest ih =>
    rw [atoms_pair, ih, atoms_single (by decide), List.flatMap_cons, Atom.quoted, if_pos rfl,
      List.singleton_append]
  | case5 c rest _ hpair hquote ih =>
    have hc : c ≠ '"' := fun heq => hquote heq
    by_cases hslash : c = '\\'
    · -- Nothing is behind the backslash.
      rcases rest with _ | ⟨next, rest⟩
      · rw [hslash]
        rfl
      · exact absurd rfl (hpair next rest hslash)
    · rw [atoms_single hslash, ih, atoms_single hslash, List.flatMap_cons, Atom.quoted, if_neg hc,
        List.singleton_append]

/-- An atom says in a heredoc what it said in double quotes. -/
theorem decode_heredocOfDouble (body : Text) :
    decodeHeredoc (heredocOfDouble body) = decodeDouble body := by
  rw [decodeHeredoc, decode, atoms_heredocOfDouble, List.flatMap_map, decodeDouble, decode]
  refine congrArg (List.flatMap · _) (funext fun atom => ?_)
  cases atom with
  | single c => rfl
  | pair c =>
    rw [Atom.unquoted]
    by_cases hc : c = '"'
    · rw [if_pos hc, hc]
      rfl
    · rw [if_neg hc]
      simp only [Atom.said, Bool.or_eq_true, beq_iff_eq, hc, or_false]

/-- An atom says in double quotes what it said in a heredoc. -/
theorem decode_doubleOfHeredoc (body : Text) :
    decodeDouble (doubleOfHeredoc body) = decodeHeredoc body := by
  rw [decodeDouble, decode, atoms_doubleOfHeredoc, List.flatMap_assoc, decodeHeredoc, decode]
  refine congrArg (List.flatMap · _) (funext fun atom => ?_)
  cases atom with
  -- A quote says the same with its escape as without it.
  | single c =>
    rw [Atom.quoted]
    by_cases hc : c = '"'
    · rw [if_pos hc, hc]
      rfl
    · rw [if_neg hc]
      rfl
  | pair c =>
    rw [Atom.quoted]
    by_cases hc : c = '"'
    · rw [if_pos hc, hc]
      rfl
    · rw [if_neg hc, List.flatMap_singleton]
      simp only [Atom.said, Bool.or_eq_true, beq_iff_eq, hc, or_false]

/-! ## Between quotes -/

/-- A text that leaves its string open is one token between double quotes. -/
theorem lexing_quoted {inner : Text} (h : Quoted.Inside inner) :
    Lexing.of ('"' :: (inner ++ ['"'])) =
      ⟨[⟨[], .doubleQuotedString, '"' :: (inner ++ ['"']), []⟩], ⟨[], .endOfFile, [], []⟩, []⟩ := by
  have hquoted : Lexer.scan ('"' :: (inner ++ ['"'] ++ [])) =
      (.doubleQuotedString, (Quoted.close [.quote '"'] (inner ++ ['"'] ++ [])).cons '"') := rfl
  rw [h.close] at hquoted
  have hlexes : Lexes [⟨[], .doubleQuotedString, '"' :: (inner ++ ['"']), []⟩]
      ('"' :: (inner ++ ['"']) ++ []) [] :=
    @Lexes.cons ⟨[], .doubleQuotedString, '"' :: (inner ++ ['"']), []⟩ _ _ _ _ _ (.nil rfl)
      (List.cons_ne_nil _ _) hquoted (.nil rfl) .nil
  rw [List.append_nil] at hlexes
  exact hlexes.readFrom (.nil rfl) 0

/-- What a text is written as says the text, with nothing special that is not escaped, and between
    double quotes it is one token. A body that is rewritten for a heredoc or for double quotes says
    what it said before. -/
theorem decode_conversions (text : Text) :
    (decodeDouble (encodeDouble text) = text ∧
      (∀ c, .single c ∈ atoms (encodeDouble text) → c ≠ '"' ∧ c ≠ '$') ∧
      Lexing.of ('"' :: (encodeDouble text ++ ['"'])) =
        ⟨[⟨[], .doubleQuotedString, '"' :: (encodeDouble text ++ ['"']), []⟩],
          ⟨[], .endOfFile, [], []⟩, []⟩) ∧
    (decodeHeredoc (encodeHeredoc text) = text ∧
      ∀ c, .single c ∈ atoms (encodeHeredoc text) → c ≠ '$') ∧
    decodeHeredoc (heredocOfDouble text) = decodeDouble text ∧
    decodeDouble (doubleOfHeredoc text) = decodeHeredoc text := by
  refine ⟨⟨decode_escape rfl text, fun c h => ?_, lexing_quoted (.encodeDouble text)⟩,
    ⟨decode_escape rfl text, fun c h => ?_⟩, decode_heredocOfDouble text,
    decode_doubleOfHeredoc text⟩
  -- What is left by itself is none of the characters that are escaped.
  · have hc := special_of_single rfl h
    rw [Bool.or_eq_false_iff, Bool.or_eq_false_iff, beq_eq_false_iff_ne, beq_eq_false_iff_ne,
      beq_eq_false_iff_ne] at hc
    exact ⟨hc.1.2, hc.2⟩
  · have hc := special_of_single rfl h
    rw [Bool.or_eq_false_iff, beq_eq_false_iff_ne, beq_eq_false_iff_ne] at hc
    exact hc.2

end Escape

end PhpAssist

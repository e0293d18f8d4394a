import PhpAssist.Proofs.OpenQuotes

/-!
# A heredoc in double quotes

The body of a heredoc knows no quotes of its own: a double quote in it is a character like any
other, and is escaped when the body is written in double quotes. Only between braces, in code, a
quote opens a string, and there an escaped quote is not what the code had. A body whose code has no
double quotes outside of single quoted strings, and which leaves neither braces open nor a backslash
at its end, is therefore written such that the string it is put into stays open; of any other body
nothing of the kind can be said.

## Main definitions

* `Quoted.Embeds`: A body of a heredoc that can be written in double quotes.

## Theorems

* `Quoted.Inside.doubleOfHeredoc`: What is written of such a body leaves the string open.
-/

namespace PhpAssist

namespace Quoted

/-- Whether a body of a heredoc can be written in double quotes, where it was read up to a state: no
    double quote stands in code, and at the end just the body is open and nothing is escaped. -/
def embedsFrom : State → Text → Bool
  | ⟨[.quote _], held⟩, [] => held != .escape
  | _, [] => false
  | state, c :: rest =>
    if c = '"' then
      match state.stack with
      -- The quote is a character of the body.
      | [.quote mark] => embedsFrom ⟨[.quote mark], .nothing⟩ rest
      | .braces _ :: _ => false
      | _ => embedsFrom (state.step c) rest
    else embedsFrom (state.step c) rest

/-- A body of a heredoc whose code has no double quotes, and which leaves nothing open. -/
def Embeds (body : Text) : Prop := embedsFrom State.start body = true

instance (body : Text) : Decidable (Embeds body) :=
  inferInstanceAs (Decidable (embedsFrom State.start body = true))

namespace State

/-- The places in a body where a unit of it begins: in the body itself, in code, or in a single
    quoted string in code. -/
inductive InBody : State → Prop
  | body {held : Held} (hheld : held ≠ .escape) : InBody ⟨[.quote '"'], held⟩
  | code {depth : Nat} : InBody ⟨[.braces depth, .quote '"'], .nothing⟩
  | key {depth : Nat} : InBody ⟨[.quote '\'', .braces depth, .quote '"'], .nothing⟩

variable {state : State} {c : Char}

/-- A character that is neither a backslash nor a double quote. -/
theorem InBody.step (h : state.InBody) (hslash : c ≠ '\\') (hquote : c ≠ '"') :
    (state.step c).InBody := by
  cases h with
  | @body held hheld =>
    rw [step_quote, if_neg hheld, if_neg hslash, if_neg hquote]
    split
    · exact .code
    split
    · exact .body nofun
    · exact .body nofun
  | @code depth =>
    rw [step_braces]
    split
    · exact .code
    split
    · split
      · exact .body nofun
      · exact .code
    split
    · rename_i hmark
      rw [hmark.resolve_right hquote]
      exact .key
    · exact .code
  | @key depth =>
    rw [step_quote, if_neg nofun, if_neg fun h => absurd h.1 nofun, if_neg hslash,
      if_neg fun h => absurd h.2 (by decide)]
    split
    · exact .code
    · exact .key

/-- A backslash and a character behind it that is no double quote. -/
theorem InBody.escaped (h : state.InBody) (hquote : c ≠ '"') :
    ((state.step '\\').step c).InBody := by
  cases h with
  | @body held hheld =>
    cases held with
    | escape => exact absurd rfl hheld
    | nothing | brace => exact .body nofun
  | code =>
    -- In code a backslash is a character like any other.
    by_cases hslash : c = '\\'
    · rw [hslash]
      exact .code
    · exact InBody.step .code hslash hquote
  | key => exact .key

/-- What is written of an escaped double quote, in a body or in a single quoted string. -/
theorem InBody.embeds_escapedQuote {rest : Text} (h : state.InBody)
    (hembeds : embedsFrom state ('\\' :: '"' :: rest) = true) :
    (state.run ['\\', '\\', '\\', '"']).InBody ∧
      embedsFrom (state.run ['\\', '\\', '\\', '"']) rest = true := by
  cases h with
  | @body held hheld =>
    cases held with
    | escape => exact absurd rfl hheld
    | nothing | brace => exact ⟨.body nofun, hembeds⟩
  | code => exact absurd hembeds Bool.false_ne_true
  | key => exact ⟨.key, hembeds⟩

/-- What is written of a double quote, in a body or in a single quoted string. -/
theorem InBody.embeds_quote {rest : Text} (h : state.InBody)
    (hembeds : embedsFrom state ('"' :: rest) = true) :
    (state.run ['\\', '"']).InBody ∧ embedsFrom (state.run ['\\', '"']) rest = true := by
  cases h with
  | @body held hheld =>
    cases held with
    | escape => exact absurd rfl hheld
    | nothing | brace => exact ⟨.body nofun, hembeds⟩
  | code => exact absurd hembeds Bool.false_ne_true
  | key => exact ⟨.key, hembeds⟩

/-- A backslash at the end of a body escapes what is behind the body. -/
theorem InBody.embeds_backslash (h : state.InBody) : embedsFrom state ['\\'] = false := by
  cases h with
  | @body held hheld =>
    cases held with
    | escape => exact absurd rfl hheld
    | nothing | brace => rfl
  | code => rfl
  | key => rfl

end State

open State

theorem embedsFrom_cons {state : State} {c : Char} {rest : Text} (hquote : c ≠ '"') :
    embedsFrom state (c :: rest) = embedsFrom (state.step c) rest := by
  rw [embedsFrom, if_neg hquote]

/-- What is written of a body from where a unit of it begins. -/
theorem within_doubleOfHeredoc {state : State} {body : Text} (hstate : state.InBody)
    (h : embedsFrom state body = true) :
    (state.run (Escape.doubleOfHeredoc body)).Within := by
  -- The cases are the units of a body: an escape, a quote, or any other character.
  fun_induction Escape.doubleOfHeredoc body generalizing state with
  | case1 =>
    cases hstate with
    | body hheld => exact ⟨rfl, hheld⟩
    | code | key => exact absurd h Bool.false_ne_true
  | case2 rest ih =>
    rcases hstate.embeds_escapedQuote h with ⟨hnext, hrest⟩
    exact ih hnext hrest
  | case3 c rest hquote ih =>
    have hc : c ≠ '"' := fun heq => hquote heq
    rw [embedsFrom_cons (by decide), embedsFrom_cons hc] at h
    exact ih (hstate.escaped hc) h
  | case4 rest ih =>
    rcases hstate.embeds_quote h with ⟨hnext, hrest⟩
    exact ih hnext hrest
  | case5 c rest _ hpair hquote ih =>
    have hc : c ≠ '"' := fun heq => hquote heq
    by_cases hslash : c = '\\'
    · -- Nothing is behind the backslash.
      rcases rest with _ | ⟨next, rest⟩
      · rw [hslash, hstate.embeds_backslash] at h
        exact absurd h Bool.false_ne_true
      · exact absurd rfl (hpair next rest hslash)
    · rw [embedsFrom_cons hc] at h
      exact ih (hstate.step hslash hc) h

/-- What is written of a body that can be written in double quotes leaves the string open. -/
theorem Inside.doubleOfHeredoc {body : Text} (h : Embeds body) :
    Inside (Escape.doubleOfHeredoc body) :=
  within_doubleOfHeredoc (.body nofun) h

end Quoted

end PhpAssist

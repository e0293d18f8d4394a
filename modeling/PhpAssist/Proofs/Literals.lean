import PhpAssist.Proofs.ConcatPlan
import PhpAssist.Proofs.Formats

/-!
# What a literal says

A token that was read as a string has the form of one: it begins with its quote and ends with it, or
it has an opening line. What a single quoted string or a nowdoc says is therefore always there, and
it is what each of the two sorts of literals that can be escaped is encoded from.

## Main definitions

* `Literal.said`: What a single quoted string or a nowdoc says.

## Theorems

* `Lexer.string_of_scan`: How a token of a kind of strings begins.
* `Quoted.close_single`, `Quoted.inner_of_scan`: How a single quoted string ends.
* `Literal.said_of_scan`: Such a token says something.
-/

namespace PhpAssist

open Text

namespace Lexer

/-- A string begins with its quote, or is a heredoc. -/
theorem string_of_scan {text : Text} {kind : Kind} {cut : Cut} (h : scan text = (kind, cut))
    (hkind : kind.isString = true) :
    (kind = .singleQuotedString ∧ text.head? = some '\'' ∧ cut = Quoted.scan text) ∨
    (kind = .doubleQuotedString ∧ text.head? = some '"' ∧ cut = Quoted.scan text) ∨
    ∃ isNowdoc, kind = (if isNowdoc then .nowdocString else .heredocString) ∧
      Heredoc.scan? text = some (isNowdoc, cut) := by
  -- Each way to spell a token is one kind, and three of them are strings.
  cases spelling_of_scan h with
  | single htext => exact .inl ⟨rfl, htext, rfl⟩
  | double htext => exact .inr (.inl ⟨rfl, htext, rfl⟩)
  | heredoc hfound => exact .inr (.inr ⟨_, rfl, hfound⟩)
  | dollar => exact absurd hkind Bool.false_ne_true
  | mark hword _ =>
    have hpunctuation : ∀ entry ∈ punctuation, entry.2.isString = false := by decide
    rw [hpunctuation _ hword] at hkind
    exact absurd hkind Bool.false_ne_true
  | other hstring _ =>
    rw [hstring] at hkind
    exact absurd hkind Bool.false_ne_true

end Lexer

namespace Quoted

/-- A single quoted string that is closed ends with a quote that is not escaped. -/
theorem close_single {text taken rest : Text}
    (h : close [.quote '\''] text = ⟨taken, rest, true⟩) :
    ∃ inner, taken = inner ++ ['\''] ∧ endsInEscape inner = false := by
  generalize hstack : [Open.quote '\''] = stack at h
  fun_induction close stack text generalizing taken with
  | case1 => exact absurd hstack (List.cons_ne_nil _ _)
  | case2 => exact absurd (congrArg Cut.closed h) Bool.false_ne_true
  | case3 => exact absurd (congrArg Cut.closed h) Bool.false_ne_true
  | case4 mark outer c text ih =>
    rcases Cut.exists_of_cons_eq h with ⟨_, rfl, hinner⟩
    rcases Cut.exists_of_cons_eq hinner with ⟨_, rfl, hclose⟩
    rcases ih hstack hclose with ⟨inner, rfl, hescape⟩
    -- A backslash and what it escapes leave no escape behind them.
    refine ⟨'\\' :: c :: inner, rfl, ?_⟩
    have hpair : endsInEscape ['\\', c] = false := (Join.Settled.escaped c).unescaped
    rw [← hescape]
    exact endsInEscape_append hpair inner
  | case5 mark outer c text _ hbrace ih =>
    injection hstack with hmark
    injection hmark with hmark
    rw [← hmark] at hbrace
    exact absurd hbrace.2.1 (by decide)
  | case6 outer c text _ _ ih =>
    injection hstack with hmark houter
    injection hmark with hmark
    rcases Cut.exists_of_cons_eq h with ⟨inner, rfl, hclose⟩
    rw [← houter, close] at hclose
    injection hclose with hnil
    exact ⟨[], by rw [← hnil, ← hmark]; rfl, rfl⟩
  | case7 mark outer c text hbackslash _ _ ih =>
    rcases Cut.exists_of_cons_eq h with ⟨_, rfl, hclose⟩
    rcases ih hstack hclose with ⟨inner, rfl, hescape⟩
    refine ⟨c :: inner, rfl, ?_⟩
    have hsingle : endsInEscape [c] = false := @endsInEscape_of_ne [] c hbackslash
    rw [← hescape]
    exact endsInEscape_append hsingle inner
  | case8 | case9 | case10 | case11 =>
    injection hstack with hmark
    exact absurd hmark (by simp only [reduceCtorEq, not_false_eq_true])

/-- A token that was read as a single quoted string has its quotes around its content. -/
theorem inner_of_scan {text after : Text} (hhead : (text ++ after).head? = some '\'')
    (hscan : scan (text ++ after) = ⟨text, after, true⟩) :
    ∃ inner, text = '\'' :: (inner ++ ['\'']) ∧ endsInEscape inner = false := by
  rcases text with _ | ⟨mark, text⟩
  · -- A string is never empty, since it takes its first quote.
    rcases after with _ | ⟨mark, after⟩
    · exact absurd hhead (by simp only [List.append_nil, List.head?_nil, reduceCtorEq,
        not_false_eq_true])
    · rw [List.nil_append, scan] at hscan
      exact absurd (congrArg Cut.taken hscan) (List.cons_ne_nil _ _)
  rw [List.cons_append, List.head?_cons, Option.some.injEq] at hhead
  rw [List.cons_append, scan, hhead] at hscan
  -- Behind the first quote the text was closed by the second.
  rcases Cut.exists_of_cons_eq hscan with ⟨taken, htaken, hclose⟩
  rcases close_single hclose with ⟨inner, hinner, hescape⟩
  rw [List.cons.injEq] at htaken
  exact ⟨inner, by rw [hhead, htaken.2, hinner], hescape⟩

end Quoted

theorem Text.exists_lines (text : Text) : ∃ line more, lines text = line :: more := by
  fun_cases lines text <;> exact ⟨_, _, rfl⟩

/-- A text with a line end has a second line. -/
theorem Text.exists_second_line {text : Text} (h : '\n' ∈ text) :
    ∃ first second more, lines text = first :: second :: more := by
  induction text with
  | nil => exact absurd h List.not_mem_nil
  | cons c text ih =>
    by_cases hc : c = '\n'
    · subst hc
      rcases exists_lines text with ⟨line, more, hlines⟩
      exact ⟨[], line, more, by rw [lines, hlines]⟩
    · rcases ih ((List.mem_cons.mp h).resolve_left (Ne.symm hc)) with ⟨first, second, more, hlines⟩
      refine ⟨c :: first, second, more, ?_⟩
      rw [lines, hlines]
      exact hc

namespace Literal

/-- What a single quoted string or a nowdoc says. -/
def said (literal : Tree) : Except AssistError Text := do
  let (quoting, text) ← parts literal
  match quoting with
  | .single => return Escape.decodeSingle (← quotedInner '\'' text)
  | .nowdoc => docBody text
  | .double | .heredoc => .error (.malformed (.literal text))

/-- Both sorts of literals are encoded from what they say. -/
theorem doubleContent_of_said {literal : Tree} {text : Text} (h : said literal = .ok text) :
    doubleContent literal = .ok (Escape.encodeDouble text) := by
  rw [said] at h
  rcases bind_eq_ok h with ⟨⟨quoting, source⟩, hparts, h⟩
  rw [doubleContent, hparts]
  cases quoting with
  | single =>
    rcases bind_eq_ok h with ⟨inner, hinner, h⟩
    rw [← Except.ok.inj h]
    show (do return Escape.encodeDouble (Escape.decodeSingle (← quotedInner '\'' source)) :
      Except AssistError Text) = _
    rw [hinner]
    rfl
  | nowdoc =>
    show (do return Escape.encodeDouble (← docBody source) : Except AssistError Text) = _
    rw [show docBody source = .ok text from h]
    rfl
  -- These two say nothing that is known before they are evaluated.
  | double | heredoc => exact absurd h throw_ne_ok

theorem quotedInner_append {quote : Char} {inner : Text} (h : endsInEscape inner = false) :
    quotedInner quote (quote :: (inner ++ [quote])) = .ok inner := by
  rw [quotedInner, List.getLast?_concat, List.dropLast_concat, h, if_pos ⟨rfl, rfl, rfl⟩]

/-- The parts of a literal are told by its token. -/
theorem parts_of_childToken? {literal : Tree} {tok : Token} {quoting : Quoting}
    (htoken : literal.childToken? Kind.isString = some tok)
    (hquoting : Quoting.ofKind? tok.kind = some quoting) :
    parts literal = .ok (quoting, tok.text) := by
  rw [parts, htoken]
  dsimp only
  rw [hquoting]

/-- The parts of a literal of one token. -/
theorem parts_token {tok : Token} {quoting : Quoting} (hkind : tok.kind.isString = true)
    (hquoting : Quoting.ofKind? tok.kind = some quoting) :
    parts (.node .stringLiteral [.token tok]) = .ok (quoting, tok.text) := by
  refine parts_of_childToken? ?_ hquoting
  simp only [Tree.childToken?, Tree.childTokens, Tree.children, List.filterMap_cons, Tree.token?,
    List.filterMap_nil, List.find?_cons, hkind]

/-- A heredoc has an opening line and another one behind it, so it has a body. -/
theorem docBody_of_scan {text after : Text} {isNowdoc : Bool}
    (h : Heredoc.scan? (text ++ after) = some (isNowdoc, ⟨text, after, true⟩)) :
    ∃ body, docBody text = .ok body := by
  rcases Heredoc.scan?_eq_some_iff.mp h with ⟨line, name, more, htext, hopens, _⟩
  -- The opening line has a line end, so there is a second line.
  have hline : '\n' ∈ text := by
    rw [htext, List.mem_append]
    left
    cases hopens with
    | mk _ _ hnewline =>
      rw [List.mem_append]
      right
      rcases hnewline with rfl | rfl <;> decide
  rcases exists_second_line hline with ⟨first, second, rest, hlines⟩
  refine ⟨joinLines ((second :: rest).dropLast.map
    (bodyLine (((second :: rest).getLastD []).takeWhile isBlank))), ?_⟩
  rw [docBody, hlines]

/-- A literal of a token that was read as a single quoted string or as a nowdoc says something. -/
theorem said_of_scan {tok : Token} {after : Text}
    (hscan : Lexer.scan (tok.text ++ after) = (tok.kind, ⟨tok.text, after, true⟩))
    (hkind : tok.kind = .singleQuotedString ∨ tok.kind = .nowdocString) :
    ∃ text, said (.node .stringLiteral [.token tok]) = .ok text := by
  have hstring : tok.kind.isString = true := by rcases hkind with h | h <;> rw [h] <;> rfl
  rcases Lexer.string_of_scan hscan hstring with ⟨hsingle, hhead, hcut⟩ | ⟨hdouble, _⟩ |
    ⟨isNowdoc, hdoc, hfound⟩
  · rcases Quoted.inner_of_scan hhead hcut.symm with ⟨inner, htext, hescape⟩
    refine ⟨Escape.decodeSingle inner, ?_⟩
    rw [said, parts_token hstring (by rw [hsingle]; rfl), htext]
    show (do return Escape.decodeSingle (← quotedInner '\'' ('\'' :: (inner ++ ['\'']))) :
      Except AssistError Text) = _
    rw [quotedInner_append hescape]
    rfl
  · rw [hdouble] at hkind
    exact absurd hkind (by decide)
  · -- A heredoc that is none of the two is excluded by its kind.
    have hnowdoc : isNowdoc = true := by
      cases isNowdoc with
      | true => rfl
      | false =>
        rw [hdoc] at hkind
        exact absurd hkind (by decide)
    rw [hnowdoc, if_pos rfl] at hdoc
    rcases docBody_of_scan hfound with ⟨body, hbody⟩
    refine ⟨body, ?_⟩
    rw [said, parts_token hstring (by rw [hdoc]; rfl)]
    exact hbody

end Literal

end PhpAssist

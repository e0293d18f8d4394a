import PhpAssist.Literal.Content
import PhpAssist.Proofs.Excerpts

/-!
# A heredoc between other code

A heredoc begins with three characters that only the shift operator goes on with, and it ends at its
label, which only a name goes on with. So it can stand behind every token but a single `<`, and in
front of everything but a character of a name.

## Main definitions

* `Literal.openingLine`: The opening line of a heredoc that is made.

## Theorems

* `Lexer.scan_less`: A token in front of a heredoc.
* `Literal.scan_openingLine`, `Literal.scan_heredoc`: A heredoc that was made is read as one token.
* `Heredoc.breaks_of_less`: No opening line runs into a heredoc.
-/

namespace PhpAssist

open Text

namespace Lexer

variable {taken old : Text} {kind : Kind}

/-- Behind its first character a spelling has a `<` only in its second place, behind another one. -/
theorem punctuation_shift : ∀ entry ∈ punctuation, entry.1.toList.tail.contains '<' = true →
    entry.1.toList.take 2 = ['<', '<'] ∧ (entry.1.toList.drop 2).contains '<' = false := by
  decide +kernel

/-- Only the shift operator has a `<` behind a spelling. -/
theorem punctuation_less {word entry : String × Kind} (hword : word ∈ punctuation)
    (hless : word.1.toList ≠ ['<']) (hentry : entry ∈ punctuation) :
    ¬ word.1.toList ++ ['<'] <+: entry.1.toList := by
  rintro ⟨more, hmore⟩
  have htail := punctuation_shift entry hentry
  rw [← hmore] at htail
  rcases hspelling : word.1.toList with _ | ⟨first, _ | ⟨second, rest⟩⟩
  · exact punctuation_ne_nil word hword hspelling
  · -- Behind one character, the `<` is in the second place.
    rw [hspelling] at htail hless
    have hfirst := (htail (List.contains_iff_mem.mpr List.mem_cons_self)).1
    exact hless (congrArg (fun c => [c]) (List.cons.inj hfirst).1)
  -- Behind two or more it is in a later place, where no spelling has one.
  · rw [hspelling] at htail
    have hmem : '<' ∈ rest ++ ['<'] ++ more :=
      List.mem_append_left _ (List.mem_append_right _ List.mem_cons_self)
    have hnone := (htail (List.contains_iff_mem.mpr (List.mem_cons_of_mem _ hmem))).2
    exact absurd (List.contains_iff_mem.mpr hmem) (Bool.eq_false_iff.mp hnone)

/-- An operator in front of a character that no spelling has behind it. -/
theorem scanPunctuation_cons {c : Char} (hne : taken ≠ [])
    (hno : ∀ word ∈ punctuation, taken = word.1.toList → ∀ entry ∈ punctuation,
      ¬ taken ++ [c] <+: entry.1.toList) (more : Text)
    (h : scanPunctuation (taken ++ old) = (kind, ⟨taken, old, true⟩)) :
    scanPunctuation (taken ++ c :: more) = (kind, ⟨taken, c :: more, true⟩) := by
  refine scanPunctuation_ends hne (fun word hword htaken _ entry hentry rest hrest => ?_) h
  by_contra hlong
  -- A longer spelling would have the character behind what was taken.
  refine hno word hword htaken entry hentry ?_
  rcases List.append_eq_append_iff.mp hrest with ⟨excess, hentry', hexcess⟩ | ⟨back, htaken', _⟩
  · rcases excess with _ | ⟨d, excess⟩
    · rw [hentry', List.append_nil] at hlong
      exact absurd (Nat.le_refl _) hlong
    · rw [List.cons_append, List.cons.injEq] at hexcess
      rw [hentry', ← hexcess.1]
      exact ⟨excess, by rw [List.append_assoc]; rfl⟩
  · rw [htaken', List.length_append] at hlong
    exact absurd (Nat.le_add_right _ _) hlong

/-- An operator other than `<` in front of `<`. -/
theorem scanPunctuation_less (hne : taken ≠ []) (hless : taken ≠ ['<']) (more : Text)
    (h : scanPunctuation (taken ++ old) = (kind, ⟨taken, old, true⟩)) :
    scanPunctuation (taken ++ '<' :: more) = (kind, ⟨taken, '<' :: more, true⟩) := by
  refine scanPunctuation_cons hne (fun word hword htaken entry hentry => ?_) more h
  rw [htaken] at hless ⊢
  exact punctuation_less hword hless hentry

/-- The opening tag has only a question mark and its letters behind its first character. -/
theorem startsWithOpenTag_cons {c : Char} (hne : taken ≠ []) (hc : c.toLower ∉ ['?', 'p', 'h'])
    (more : Text) (h : startsWithOpenTag (taken ++ old) = false) :
    startsWithOpenTag (taken ++ c :: more) = false := by
  by_contra htag
  rw [Bool.not_eq_false, startsWithOpenTag, beq_iff_eq, show openTag.length = 5 from rfl] at htag
  by_cases hsize : 5 ≤ taken.length
  · -- The tag was there before.
    rw [List.take_append_of_le_length hsize] at htag
    rw [startsWithOpenTag, beq_eq_false_iff_ne, show openTag.length = 5 from rfl,
      List.take_append_of_le_length hsize] at h
    exact h htag
  -- The new character would be one of the tag behind its first.
  have hpos := List.length_pos_iff.mpr hne
  have hchar := congrArg (fun tag => tag[taken.length]?) htag
  simp only [lower, List.getElem?_map] at hchar
  rw [List.getElem?_take_of_lt (by omega), List.getElem?_append_right (Nat.le_refl _),
    Nat.sub_self, List.getElem?_cons_zero, Option.map_some] at hchar
  have hcases : taken.length = 1 ∨ taken.length = 2 ∨ taken.length = 3 ∨ taken.length = 4 := by
    omega
  rcases hcases with hn | hn | hn | hn
  all_goals
    rw [hn] at hchar
    exact hc (Option.some.inj hchar ▸ by decide)

/-- A token of two `<` is the shift operator. -/
theorem kind_shift {rest : Text}
    (h : scan ('<' :: '<' :: rest) = (kind, ⟨['<', '<'], rest, true⟩)) : kind = .operator := by
  have hold : scanFrom '<' ('<' :: rest) = (kind, ⟨['<', '<'], rest, true⟩) := h
  rw [scanFrom_eq, if_neg (show ¬ startsWithOpenTag ('<' :: '<' :: rest) = true from nofun)] at hold
  split at hold
  · rw [scanHeredoc] at hold
    split at hold
    · -- A heredoc is longer than two characters.
      rename_i isNowdoc cut hcut
      rw [Prod.mk.injEq] at hold
      rw [hold.2] at hcut
      rcases Heredoc.scan?_eq_some_iff.mp (show Heredoc.scan? (['<', '<'] ++ rest) = _ from hcut) with
        ⟨line, name, more, htaken, hopens, _⟩
      cases hopens
      exact absurd htaken (by simp only [List.cons_append, List.cons.injEq, reduceCtorEq, and_false,
        not_false_eq_true])
    · exact ((Prod.mk.injEq _ _ _ _).mp hold).1.symm
  -- Of the spellings only the operator is `<<`.
  · rw [scanPlain_less, scanPunctuation] at hold
    split at hold
    · rename_i found hfound
      rw [hold] at hfound
      rcases (spelling?_punctuation_iff.mp
        (show spelling? punctuation (['<', '<'] ++ rest) = _ from hfound)).1 with
        ⟨word, hword, htaken⟩
      exact punctuation_functional _ hword ("<<", .operator) (by decide) htaken.symm
    · rw [Prod.mk.injEq, Cut.mk.injEq] at hold
      exact absurd hold.2.1 (by simp only [List.take_succ_cons, List.take_zero, List.cons.injEq,
        reduceCtorEq, and_false, not_false_eq_true])

/-- A token other than `<` in front of a heredoc. -/
theorem scan_less (hne : taken ≠ []) (hless : taken ≠ ['<']) (more : Text)
    (h : scan (taken ++ old) = (kind, ⟨taken, old, true⟩)) :
    scan (taken ++ '<' :: '<' :: '<' :: more) =
      (kind, ⟨taken, '<' :: '<' :: '<' :: more, true⟩) := by
  by_cases hshift : taken = ['<', '<']
  · -- What is left of the shift operator is no opening line.
    rw [hshift] at h ⊢
    rw [kind_shift h]
    rfl
  rcases taken with _ | ⟨c, taken⟩
  · exact absurd rfl hne
  have hold : scanFrom c (taken ++ old) = (kind, ⟨c :: taken, old, true⟩) := h
  show scanFrom c (taken ++ '<' :: '<' :: '<' :: more) = _
  -- The branches in the order in which the scanner asks.
  rw [scanFrom_eq, ← List.cons_append] at hold ⊢
  split at hold
  -- An open tag is what it was.
  · rename_i htag
    rw [Prod.mk.injEq, Cut.mk.injEq] at hold
    have happend := startsWithOpenTag_append htag hold.2.1 ('<' :: '<' :: '<' :: more)
    rw [if_pos happend.1, ← hold.1, show openTag.length = 5 from rfl, happend.2.1, happend.2.2]
  rename_i htag
  rw [Bool.not_eq_true] at htag
  rw [startsWithOpenTag_cons hne (by decide) _ htag, if_neg Bool.false_ne_true]
  split at hold
  · rename_i hsome
    rw [scanHeredoc] at hold
    split at hold
    · rename_i isNowdoc cut hcut
      rw [Prod.mk.injEq] at hold
      rw [hold.2] at hcut
      have hscan : Heredoc.scan? (c :: taken ++ '<' :: '<' :: '<' :: more) =
          some (isNowdoc, ⟨c :: taken, '<' :: '<' :: '<' :: more, true⟩) :=
        Heredoc.scan?_retail hcut rfl
      have hopening : (after? ['<', '<', '<'] (c :: taken ++ '<' :: '<' :: '<' :: more)).isSome =
          true := by
        rcases Heredoc.scan?_eq_some_iff.mp hcut with ⟨line, name, more, htaken, hopens, _⟩
        rw [htaken]
        cases hopens
        rfl
      rw [if_pos hopening, scanHeredoc, hscan, ← hold.1]
    · -- Nothing but the shift operator begins as a heredoc does.
      rcases Option.isSome_iff_exists.mp hsome with ⟨rest, hrest⟩
      rw [after?_eq_some hrest, Prod.mk.injEq, Cut.mk.injEq] at hold
      exact absurd hold.2.1.symm hshift
  · rename_i hnone
    have hnone' : (after? ['<', '<', '<'] (c :: taken ++ '<' :: '<' :: '<' :: more)).isSome =
        false := by
      rw [Option.isSome_eq_false_iff, Option.isNone_iff_eq_none]
      by_contra hsome
      rcases Option.ne_none_iff_exists'.mp hsome with ⟨rest, hrest⟩
      have hheads := after?_eq_some hrest
      rcases taken with _ | ⟨d, _ | ⟨e, taken⟩⟩
      · exact hless (by rw [(List.cons.inj hheads).1])
      · refine hshift ?_
        rw [(List.cons.inj hheads).1, (List.cons.inj (List.cons.inj hheads).2).1]
      · -- Three characters of the token itself begin a heredoc.
        refine hnone ?_
        simp only [List.cons_append, List.nil_append, List.cons.injEq] at hheads
        rw [hheads.1, hheads.2.1, hheads.2.2.1]
        rfl
    rw [hnone', if_neg Bool.false_ne_true]
    -- Everything else ends ahead of `<`.
    have hname : EndsName [] ('<' :: '<' :: '<' :: more) :=
      ⟨fun _ => rfl, fun hslash => absurd hslash.symm (List.cons_ne_nil _ _)⟩
    exact scanPlain_ends hname ⟨fun _ => rfl, rfl⟩ (scanPunctuation_less hne hless _) hold

end Lexer

namespace Heredoc

/-- Behind its first three characters an opening line has no `<`. -/
theorem Opens.tail {line label : Text} {isNowdoc : Bool} (h : Opens line label isNowdoc) :
    ∃ tail, line = '<' :: '<' :: '<' :: tail ∧ tail ≠ [] ∧ '<' ∉ tail := by
  cases h with
  | @mk blanks quoted label newline isNowdoc hblanks hquoted hnewline =>
    have hblank : '<' ∉ blanks := fun hmem => absurd (hblanks _ hmem) (by decide)
    have hlabel : '<' ∉ quoted := by
      cases hquoted with
      | bare hlabel => exact hlabel.not_mem rfl
      | quoted hlabel hmark =>
        rw [List.cons_append, List.mem_cons, List.mem_append, List.mem_singleton]
        rintro (rfl | hmem | rfl)
        · exact absurd hmark (by decide)
        · exact hlabel.not_mem rfl hmem
        · exact absurd hmark (by decide)
    -- Neither blanks, label, quotes nor line end hold a `<`.
    have hend : newline ≠ [] ∧ '<' ∉ newline := by
      rcases hnewline with rfl | rfl <;> decide
    refine ⟨blanks ++ (quoted ++ newline), by simp only [List.append_assoc]; rfl, ?_, ?_⟩
    · exact List.append_ne_nil_of_right_ne_nil _ (List.append_ne_nil_of_right_ne_nil _ hend.1)
    · rw [List.mem_append, List.mem_append]
      rintro (hmem | hmem | hmem)
      · exact hblank hmem
      · exact hlabel hmem
      · exact hend.2 hmem

/-- An opening line that begins in front of a heredoc does not go on in it. -/
theorem breaks_of_less (more : Text) : Breaks ('<' :: '<' :: '<' :: more) := by
  intro front back rest label isNowdoc htext hfront hback hopens
  rcases hopens.tail with ⟨tail, hline, hne, hmem⟩
  rcases front with _ | ⟨a, front⟩
  · exact hfront rfl
  rcases back with _ | ⟨d, back⟩
  · exact hback rfl
  rcases tail with _ | ⟨t, tail⟩
  · exact hne rfl
  have hfirst : t ≠ '<' := fun heq => hmem (heq ▸ List.mem_cons_self)
  -- Wherever the heredoc begins in the line, one of its three characters is too far behind.
  rcases front with _ | ⟨b, _ | ⟨c, front⟩⟩
  · simp only [List.cons_append, List.nil_append, List.cons.injEq] at htext hline
    rw [hline.2.2, List.cons_append, List.cons_append, List.cons.injEq, List.cons.injEq] at htext
    exact hfirst htext.2.2.1.symm
  · simp only [List.cons_append, List.nil_append, List.cons.injEq] at htext hline
    rw [hline.2.2.2, List.cons_append, List.cons.injEq] at htext
    exact hfirst htext.2.1.symm
  · simp only [List.cons_append, List.cons.injEq] at htext hline
    refine hmem ?_
    rw [← hline.2.2.2, ← htext.1]
    exact List.mem_append_right _ List.mem_cons_self

/-- A line that does not close a heredoc does not close it with its line end either. -/
theorem closing?_line {name line : Text} (hname : IsLabel name) (h : closing? name line = none) :
    closing? name (line ++ ['\n']) = none := by
  by_contra hsome
  rcases Option.ne_none_iff_exists'.mp hsome with ⟨cut, hcut⟩
  rcases (closing?_eq_some_iff hname).mp hcut with ⟨blanks, rest, hline, hblanks, hrest, _⟩
  rcases List.eq_nil_or_concat rest with rfl | ⟨front, c, rfl⟩
  · -- The label itself would end in the line end.
    have hmem : '\n' ∈ blanks ++ (name ++ []) := hline ▸ List.mem_append_right _ List.mem_cons_self
    rw [List.append_nil, List.mem_append] at hmem
    rcases hmem with hmem | hmem
    · exact absurd (hblanks _ hmem) (by decide)
    · exact hname.not_mem rfl hmem
  · rw [List.concat_eq_append, ← List.append_assoc, ← List.append_assoc] at hline
    -- Without its line end the line would close as well.
    have hparts := (List.append_inj' hline rfl).1
    have hfront : front.head?.any isIdentContinue = false := by
      rcases front with _ | ⟨d, front⟩
      · rfl
      · exact hrest
    rw [List.append_assoc] at hparts
    have hclosing := (closing?_eq_some_iff hname).mpr ⟨blanks, front, hparts, hblanks, hfront, rfl⟩
    exact absurd (h.symm.trans hclosing) nofun

end Heredoc

namespace Text

theorem lines_cons {c : Char} (hc : c ≠ '\n') (text : Text) :
    lines (c :: text) = match lines text with
      | [] => [[c]]
      | line :: more => (c :: line) :: more :=
  lines.eq_3 c text hc

/-- A text without a line end is one line. -/
theorem lines_of_not_mem {text : Text} (h : '\n' ∉ text) : lines text = [text] := by
  induction text with
  | nil => rfl
  | cons c text ih =>
    rw [List.mem_cons, not_or] at h
    rw [lines_cons (Ne.symm h.1), ih h.2]

/-- The first line of a text that has a line end. -/
theorem lines_line {line : Text} (hline : '\n' ∉ line) (more : Text) :
    lines (line ++ '\n' :: more) = line :: lines more := by
  induction line with
  | nil => rfl
  | cons c line ih =>
    rw [List.mem_cons, not_or] at hline
    rw [List.cons_append, lines_cons (Ne.symm hline.1), ih hline.2]

end Text

namespace Heredoc

/-- A content none of whose lines closes a heredoc goes on up to the label behind it. -/
theorem closes_of_lines {name content rest : Text} (hname : IsLabel name)
    (hlines : ∀ line ∈ lines content, closing? name line = none)
    (hrest : rest.head?.any isIdentContinue = false) :
    Closes name (content ++ '\n' :: name) rest := by
  have hlast : Closes name ([] ++ name) rest := .here nofun hrest
  induction hsize : content.length using Nat.strong_induction_on generalizing content with
  | h size ih =>
    -- Line by line; the label is the line behind the last one.
    by_cases hmem : '\n' ∈ content
    · rcases List.eq_append_cons_of_mem hmem with ⟨line, more, rfl, hline⟩
      rw [lines_line hline, List.forall_mem_cons] at hlines
      rw [List.append_assoc, List.cons_append]
      refine .line hline (closing?_line hname hlines.1) (ih more.length ?_ hlines.2 rfl)
      rw [← hsize, List.length_append, List.length_cons]
      omega
    · rw [lines_of_not_mem hmem, List.forall_mem_singleton] at hlines
      exact .line hmem (closing?_line hname hlines) hlast

end Heredoc

namespace Literal

open Heredoc

variable {content heredoc : Text}

theorem isLabel_heredocDelimiter : IsLabel heredocDelimiter :=
  ⟨'H', "EREDOC_DELIMITER".toList, rfl, rfl, List.all_eq_true.mp rfl⟩

/-- The lines that a content cannot have are those that close a heredoc. -/
theorem closesHeredoc_eq (line : Text) :
    closesHeredoc line = (closing? heredocDelimiter line).isSome := by
  rw [closesHeredoc, closing?, Cut.run]
  dsimp only
  cases after? heredocDelimiter (line.dropWhile isBlank) with
  | none => rfl
  | some rest =>
    rw [Option.any_some]
    dsimp only
    cases rest.head?.any isIdentContinue <;> rfl

theorem closesHeredoc_eq_false_iff {line : Text} :
    closesHeredoc line = false ↔ closing? heredocDelimiter line = none := by
  rw [closesHeredoc_eq, Option.isSome_eq_false_iff, Option.isNone_iff_eq_none]

/-- What a heredoc with a content is made of. -/
theorem heredoc_eq (h : Literal.heredoc content = .ok heredoc) :
    heredoc = ['<', '<', '<'] ++ heredocDelimiter ++ '\n' :: content ++ '\n' :: heredocDelimiter ∧
      ∀ line ∈ lines content, closing? heredocDelimiter line = none := by
  rw [Literal.heredoc] at h
  split at h
  · exact absurd h nofun
  · rename_i hnone
    refine ⟨(Except.ok.inj h).symm, fun line hline => ?_⟩
    rw [List.any_eq_true, not_exists] at hnone
    rw [← closesHeredoc_eq_false_iff]
    exact Bool.eq_false_iff.mpr fun hcloses => hnone line ⟨hline, hcloses⟩

theorem exists_of_heredoc (h : Literal.heredoc content = .ok heredoc) :
    ∃ more, heredoc = '<' :: '<' :: '<' :: more := by
  refine ⟨heredocDelimiter ++ '\n' :: (content ++ '\n' :: heredocDelimiter), ?_⟩
  rw [(heredoc_eq h).1]
  simp only [List.append_assoc, List.cons_append, List.nil_append]

/-- The opening line of a heredoc that is made. -/
def openingLine : Text := ['<', '<', '<'] ++ heredocDelimiter ++ ['\n']

/-- The opening line and what closes the heredoc behind it are read as one token. -/
theorem scan_openingLine {body after : Text} (h : Closes heredocDelimiter body after) :
    Lexer.scan (openingLine ++ body ++ after) =
      (.heredocString, ⟨openingLine ++ body, after, true⟩) := by
  have hopens : Opens openingLine heredocDelimiter false :=
    @Opens.mk [] _ _ _ _ (List.forall_mem_nil _) (.bare isLabel_heredocDelimiter) (.inl rfl)
  have hfound := scan?_eq_some_iff.mpr ⟨openingLine, heredocDelimiter, body, rfl, hopens, h⟩
  have hscan : Lexer.scan (openingLine ++ body ++ after) =
      Lexer.scanHeredoc (openingLine ++ body ++ after) := rfl
  rw [hscan, Lexer.scanHeredoc, hfound]
  rfl

/-- A heredoc that was made is read as one token in front of every text that begins with no
    character of a name. -/
theorem scan_heredoc (h : Literal.heredoc content = .ok heredoc) {after : Text}
    (hafter : after.head?.any isIdentContinue = false) :
    Lexer.scan (heredoc ++ after) = (.heredocString, ⟨heredoc, after, true⟩) := by
  rcases heredoc_eq h with ⟨heq, hlines⟩
  have hscan := scan_openingLine (closes_of_lines isLabel_heredocDelimiter hlines hafter)
  rwa [show openingLine ++ (content ++ '\n' :: heredocDelimiter) = heredoc from by
    rw [heq, openingLine]
    simp only [List.append_assoc, List.cons_append, List.nil_append]] at hscan

end Literal

/-! ## Other code in place of some code -/

theorem Lexer.scan_nul (rest : Text) : (scan ('\x00' :: rest)).1 = .unknown := rfl

/-- What a token that means something begins with is no end of a line comment. -/
theorem Lexer.isCommentChar_of_scan {text after : Text} {kind : Kind}
    (hnone : Trivia.scan? true (text ++ after) = none) (hne : text ≠ [])
    (hscan : scan (text ++ after) = (kind, ⟨text, after, true⟩)) (hkind : kind ≠ .unknown) :
    (text ++ after).head?.any Trivia.isCommentChar = true := by
  rcases text with _ | ⟨c, text⟩
  · exact absurd rfl hne
  have hline := (Trivia.scan?_eq_none_iff.mp hnone).1 rfl
  show Trivia.isCommentChar c = true
  rw [Trivia.isCommentChar, Bool.and_eq_true, bne_iff_ne, bne_iff_ne]
  refine ⟨fun hc => ?_, fun hc => ?_⟩
  · rw [hc] at hline
    exact absurd hline (by decide)
  · rw [hc] at hscan
    exact hkind ((congrArg Prod.fst hscan).symm.trans (scan_nul _))

/-- A text that a token in `before` may stand in front of with something in between, and that ends
    the trivia in front of it. -/
structure Text.Joins (before text : Text) : Prop where
  quiet : ∀ b, before.getLast? = some b → text.head?.all (isQuiet b) = true
  breaks : Heredoc.Breaks text

theorem Text.Joins.follows {before between text : Text} (h : Joins before text)
    (hbetween : between <:+ before) (hne : between ≠ []) : Follows between text := by
  refine ⟨fun hnil => absurd hnil hne, fun b hb => h.quiet b ?_⟩
  rcases hbetween with ⟨front, rfl⟩
  rw [List.getLast?_append, hb, Option.some_or]

theorem Lexed.startWith {tokens : List Token} {leading : List Trivia} {text rest other : Text}
    (h : Lexed tokens text rest) (hne : tokens ≠ [])
    (hleading : Trivia.Takes true leading other text) :
    Lexes (Token.startWith leading tokens) other rest := by
  rcases tokens with _ | ⟨tok, tokens⟩
  · exact absurd rfl hne
  have hnil : tok.leading = [] := by
    cases h.2 with
    | cons hleading' _ _ _ _ => exact (hleading'.eq_nil h.1).1
  have hlexes : Lexes (tok :: tokens) (tok.leadingText ++ text) rest := by
    rw [Token.leadingText, hnil]
    exact h.2
  exact hlexes.startWith hleading

/-- Other tokens in place of a token and all behind it. The trivia in front stays. -/
theorem Lexes.spliced {front more tokens : List Token} {next : Token} {text rest other last : Text}
    (h : Lexes (front ++ next :: more) text rest) (hother : Lexed tokens other last)
    (hne : tokens ≠ []) (hjoins : Joins (front.flatMap Token.fullText ++ next.leadingText) other)
    (hkind : next.kind ≠ .unknown)
    (hends : ∀ tok, front.getLast? = some tok → tok.trailingText ++ next.leadingText = [] →
      ∀ old, Lexer.scan (tok.text ++ old) = (tok.kind, ⟨tok.text, old, true⟩) →
        Lexer.scan (tok.text ++ other) = (tok.kind, ⟨tok.text, other, true⟩)) :
    Lexes (front ++ Token.startWith next.leading tokens)
      (front.flatMap Token.fullText ++ (next.leadingText ++ other)) last := by
  rcases h.split with ⟨mid, hfront, hback⟩
  cases hback with
  | @cons _ _ _ after gap _ hleading hnext hscan htrailing hmore =>
    have hnone := hother.spelled.tight.scan?_rest
    -- Trivia that ended in front of the old token ends in front of the new one.
    have hstops : Trivia.Stops (next.text ++ after) other :=
      Trivia.stops_of_none hother.1
        (Lexer.isCommentChar_of_scan hleading.scan?_rest hnext hscan hkind)
    have hnew := hleading.retail hstops hother.1
    have hbehind := hother.startWith hne hnew
    rcases List.eq_nil_or_concat front with rfl | ⟨front, tok, rfl⟩
    · exact hbehind
    rw [List.concat_eq_append] at *
    rcases hfront.split with ⟨_, _, hlast⟩
    cases hlast with
    | @cons _ _ _ after' gap' _ _ htok hscan' htrailing' hnil =>
      cases hnil
      have hmid : mid = next.leadingText ++ (next.text ++ after) := hleading.text_eq
      have hold : tok.trailingText ++ mid =
          (tok.trailingText ++ next.leadingText) ++ (next.text ++ after) := by
        rw [hmid, List.append_assoc]
      have hafter : after' = (tok.trailingText ++ next.leadingText) ++ (next.text ++ after) := by
        rw [← hold]
        exact htrailing'.text_eq
      rw [hafter] at hscan'
      -- What is in front of the new text ends in the last token and the trivia behind it.
      have hsuffix : tok.text ++ (tok.trailingText ++ next.leadingText) <:+
          (front ++ [tok]).flatMap Token.fullText ++ next.leadingText := by
        refine ⟨front.flatMap Token.fullText ++ tok.leadingText, ?_⟩
        simp only [List.flatMap_append, List.flatMap_singleton, Token.fullText, List.append_assoc]
      have hgap : tok.trailingText ++ next.leadingText <:+ _ :=
        (List.suffix_append tok.text _).trans hsuffix
      have hlead : next.leadingText <:+ _ := (List.suffix_append tok.trailingText _).trans hgap
      have hfollows : Follows (tok.text ++ (tok.trailingText ++ next.leadingText)) other :=
        hjoins.follows hsuffix (List.append_ne_nil_of_left_ne_nil htok _)
      have hscan : Lexer.scan (tok.text ++ ((tok.trailingText ++ next.leadingText) ++ other)) =
          (tok.kind, ⟨tok.text, (tok.trailingText ++ next.leadingText) ++ other, true⟩) := by
        by_cases hbetween : tok.trailingText ++ next.leadingText = []
        · rw [hbetween] at hscan' ⊢
          exact hends tok (by rw [List.getLast?_concat]) hbetween _ hscan'
        · exact Lexer.scan_retail (hjoins.follows hgap hbetween) hjoins.breaks htok hscan'
      have htail : Trivia.Takes false tok.trailing ((tok.trailingText ++ next.leadingText) ++ other)
          (next.leadingText ++ other) := by
        by_cases hnil : next.leadingText = []
        · rw [hnil] at hmid ⊢
          rw [hmid] at htrailing'
          rw [List.append_nil]
          exact htrailing'.retail hstops hnone
        · rw [hmid] at htrailing'
          rw [List.append_assoc]
          exact htrailing'.retail_append hnil (hjoins.follows hlead hnil)
      have hwhole := hfront.retail_between hold hscan hfollows hjoins.breaks htail
      have htext : (front ++ [tok]).flatMap Token.fullText ++ (next.leadingText ++ other) =
          front.flatMap Token.fullText ++
            (tok.frontText ++ ((tok.trailingText ++ next.leadingText) ++ other)) := by
        simp only [List.flatMap_append, List.flatMap_singleton, Token.fullText, Token.frontText,
          List.append_assoc]
      rw [htext]
      exact hwhole.append hbehind

/-- A heredoc can stand behind everything but a text that ends in a `<`. -/
theorem Text.joins_less (before rest : Text) : Joins before ('<' :: '<' :: '<' :: rest) := by
  refine ⟨fun b _ => ?_, Heredoc.breaks_of_less rest⟩
  have hless : isIdentStart '<' = false := rfl
  show isQuiet b '<' = true
  rw [isQuiet, hless, Bool.and_false]
  rfl

/-- What comes behind a stretch of tokens. -/
theorem Lexes.behind {front between back : List Token} {final : Token} {text rest : Text}
    (h : Lexes (front ++ (between ++ back)) text rest) (hfinal : between.getLast? = some final) :
    Lexes back (back.flatMap Token.fullText ++ rest) rest ∧
      Trivia.Takes false final.trailing
        (final.trailingText ++ (back.flatMap Token.fullText ++ rest))
        (back.flatMap Token.fullText ++ rest) := by
  rcases List.getLast?_eq_some_iff.mp hfinal with ⟨most, rfl⟩
  rw [List.append_assoc, ← List.append_assoc front] at h
  rcases h.split with ⟨mid, _, hlast⟩
  rw [List.singleton_append] at hlast
  -- The final token is the first of what is left, and its trivia end where the next begins.
  cases hlast with
  | @cons _ _ _ after next _ _ _ _ htrailing hmore =>
    have hnext : next = back.flatMap Token.fullText ++ rest := hmore.text_eq
    have hafter : after = final.trailingText ++ next := htrailing.text_eq
    rw [hafter, hnext] at htrailing
    rw [hnext] at hmore
    exact ⟨hmore, htrailing⟩

/-- Where nothing stands behind the last token of a row, its text ends in that token. -/
theorem Token.exists_append_text {front : List Token} {tok : Token} {between : Text}
    (htok : front.getLast? = some tok) (hnone : tok.trailingText ++ between = []) :
    ∃ before, front.flatMap fullText ++ between = before ++ tok.text := by
  rcases List.getLast?_eq_some_iff.mp htok with ⟨most, rfl⟩
  rw [List.append_eq_nil_iff] at hnone
  refine ⟨most.flatMap fullText ++ tok.leadingText, ?_⟩
  rw [hnone.2, List.append_nil, List.flatMap_append, List.flatMap_singleton, fullText, hnone.1,
    List.append_nil, List.append_assoc]

/-- A heredoc in place of a stretch of tokens. The trivia around the stretch stays. -/
theorem Lexes.heredoc {front between back : List Token} {first final : Token}
    {text rest content heredoc : Text} (h : Lexes (front ++ (between ++ back)) text rest)
    (hfirst : between.head? = some first) (hfinal : between.getLast? = some final)
    (hkind : first.kind ≠ .unknown) (hheredoc : Literal.heredoc content = .ok heredoc)
    (hbefore : (front.flatMap Token.fullText ++ first.leadingText).getLast? ≠ some '<')
    (hbehind : (final.trailingText ++ (back.flatMap Token.fullText ++ rest)).head?.any
      isIdentContinue = false) :
    Lexes (front ++ ⟨first.leading, .heredocString, heredoc, final.trailing⟩ :: back)
      (front.flatMap Token.fullText ++ (first.leadingText ++ (heredoc ++
        (final.trailingText ++ (back.flatMap Token.fullText ++ rest))))) rest := by
  -- What comes behind the stretch is read as before behind the heredoc.
  have hback : Lexed (⟨[], .heredocString, heredoc, final.trailing⟩ :: back)
      (heredoc ++ (final.trailingText ++ (back.flatMap Token.fullText ++ rest))) rest := by
    rcases h.behind hfinal with ⟨hmore, htrailing⟩
    rcases Literal.exists_of_heredoc hheredoc with ⟨inside, hless⟩
    refine .ofLexes hmore htrailing ?_ ?_ (Literal.scan_heredoc hheredoc hbehind)
    · rw [hless]
      exact List.cons_ne_nil _ _
    · rw [hless]
      rfl
  rcases List.head?_eq_some_iff.mp hfirst with ⟨more, rfl⟩
  rw [List.cons_append] at h
  rcases Literal.exists_of_heredoc hheredoc with ⟨inside, hless⟩
  have hjoins (before : Text) :
      Joins before (heredoc ++ (final.trailingText ++ (back.flatMap Token.fullText ++ rest))) := by
    rw [hless]
    exact joins_less before _
  refine h.spliced hback (List.cons_ne_nil _ _) (hjoins _) hkind fun tok htok hnone old hold => ?_
  rw [hless]
  refine Lexer.scan_less ?_ ?_ _ hold
  · exact h.text_ne_nil tok (List.mem_append_left _ (List.mem_of_getLast? htok))
  · -- Where nothing is in between, a single `<` would end the text in front of the heredoc.
    intro heq
    rcases Token.exists_append_text htok hnone with ⟨before, htext⟩
    rw [htext, heq, List.getLast?_concat] at hbefore
    exact hbefore rfl

end PhpAssist

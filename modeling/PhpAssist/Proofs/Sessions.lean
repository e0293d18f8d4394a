import PhpAssist.Session

/-!
# Runs of a session

A session answers one request after another. Two requests write, `set` and an `apply` that succeeds,
and each of them writes to the file that it names; every other request, a failed `apply` among them,
leaves the session as it is or adds a file behind the others. So the text of a file at the end of a
run is what the writes to that file make of its text at the beginning, whatever is asked about other
files in between. An `apply` may fail before its text is known or after that text was parsed, and
nothing is written before both checks have passed.

## Main definitions

* `Session.Request`, `Session.Answer`, `Session.Event`: What is asked, and what is answered.
* `Session.step`, `Session.run`: One request, and one request after another.
* `Session.Event.write?`, `Session.written`: What becomes of the text of a file.

## Theorems

* `SourceFile.apply_cases`: The three ways in which an assist is applied.
* `Session.file?_step`, `Session.file?_run`: A file after one request, and after all of them.
* `Session.run_atomic`: What requests do to the files of a session, and what a failure does not do.
-/

namespace PhpAssist

namespace SourceFile

/-- There are no edits, or their text has more diagnostics than the file, or it takes the place of
    the text of the file. -/
theorem apply_cases (config : AssistConfig) (file : SourceFile) (offset : Nat) (id : AssistId) :
    (∃ error, file.resolve config offset id = .error error ∧
      file.apply config offset id = .error error) ∨
    ∃ change, file.resolve config offset id = .ok change ∧
      ((file.diagnostics.length < (Parse.file (change.apply file.text)).diagnostics.length ∧
          file.apply config offset id =
            .error (.invalidCode (Parse.file (change.apply file.text)).diagnostics)) ∨
        ((Parse.file (change.apply file.text)).diagnostics.length ≤ file.diagnostics.length ∧
          file.apply config offset id = .ok (change, change.apply file.text))) := by
  rw [apply]
  -- The text is compared after the edits are known, and only then it is given.
  rcases hresolve : file.resolve config offset id with error | change
  · exact .inl ⟨error, rfl, rfl⟩
  · refine .inr ⟨change, rfl, ?_⟩
    dsimp only [bind, Except.bind]
    split
    · rename_i hworse
      exact .inl ⟨hworse, rfl⟩
    · rename_i hworse
      exact .inr ⟨Nat.le_of_not_lt hworse, rfl⟩

end SourceFile

namespace Session

/-! ## Requests -/

/-- What a session is asked. Files have the numbers that they were given when they were added. -/
inductive Request where
  | add (path : String) (text : Text)
  | set (file : Nat) (text : Text)
  | text (file : Nat)
  | diagnostics (file : Nat)
  | assists (file offset : Nat)
  | resolve (file offset : Nat) (id : AssistId)
  | apply (file offset : Nat) (id : AssistId)

/-- What a session answers. No file has the number of the request if a file is missing. -/
inductive Answer where
  | added (file : Nat)
  | done
  | text (text : Text)
  | diagnostics (diagnostics : List Diagnostic)
  | assists (assists : List Assist)
  | change (result : Except AssistError Change)
  | missing

/-- A request with its answer. -/
structure Event where
  request : Request
  answer : Answer

/-- The answer to a request about a file, with what becomes of the session. -/
def ask (session : Session) (file : Nat) (answer : SourceFile → Answer × Session) :
    Answer × Session :=
  match session.file? file with
  | some it => answer it
  | none => (.missing, session)

/-- Answers one request. -/
def step (session : Session) : Request → Answer × Session
  | .add path text =>
    let (file, next) := session.add path text
    (.added file, next)
  | .set file text => session.ask file fun _ => (.done, session.set file text)
  | .text file => session.ask file fun it => (.text it.text, session)
  | .diagnostics file => session.ask file fun it => (.diagnostics it.diagnostics, session)
  | .assists file offset =>
    session.ask file fun it => (.assists (it.assists session.config offset), session)
  | .resolve file offset id =>
    session.ask file fun it => (.change (it.resolve session.config offset id), session)
  | .apply file offset id =>
    match session.apply file offset id with
    | some (result, next) => (.change result, next)
    | none => (.missing, session)

/-- Answers one request after another. -/
def run (session : Session) : List Request → List Event × Session
  | [] => ([], session)
  | request :: more =>
    let (answer, next) := session.step request
    let (events, last) := next.run more
    (⟨request, answer⟩ :: events, last)

/-! ## Writes -/

/-- What an event writes to the file with a number, given the text of that file. -/
def Event.write? (file : Nat) (text : Text) : Event → Option Text
  | ⟨.set number new, .done⟩ => if number = file then some new else none
  | ⟨.apply number _ _, .change (.ok change)⟩ =>
    if number = file then some (change.apply text) else none
  | _ => none

/-- What becomes of the text of a file. -/
def written (file : Nat) : List Event → Text → Text
  | [], text => text
  | event :: more, text => written file more ((event.write? file text).getD text)

/-- Only a `set` of the file and an `apply` to it that succeeds write to a file. -/
theorem Event.write?_eq_some {file : Nat} {text new : Text} {event : Event}
    (h : event.write? file text = some new) :
    event = ⟨.set file new, .done⟩ ∨ ∃ offset id change,
      event = ⟨.apply file offset id, .change (.ok change)⟩ ∧ new = change.apply text := by
  unfold write? at h
  -- Only these two requests write, and only to their own file.
  split at h
  · split at h
    · rename_i hfile
      rw [← hfile, ← Option.some.inj h]
      exact .inl rfl
    · exact absurd h nofun
  · split at h
    · rename_i hfile
      rw [← hfile, ← Option.some.inj h]
      exact .inr ⟨_, _, _, rfl, rfl⟩
    · exact absurd h nofun
  · exact absurd h nofun

/-- A text that changes is written. -/
theorem exists_write {file : Nat} {events : List Event} {text : Text}
    (h : written file events text ≠ text) :
    ∃ event ∈ events, ∃ old new, event.write? file old = some new := by
  -- The first write is looked for; up to there the text is the same.
  induction events generalizing text with
  | nil => exact absurd rfl h
  | cons event more ih =>
    rcases hwrite : event.write? file text with _ | new
    · rw [written, hwrite, Option.getD_none] at h
      rcases ih h with ⟨other, hother, hwrites⟩
      exact ⟨other, List.mem_cons_of_mem _ hother, hwrites⟩
    · exact ⟨event, List.mem_cons_self, text, new, hwrite⟩

/-! ## One request -/

section Step

variable {session : Session} {number : Nat} {file : SourceFile}

/-- A file that is there stays there when another one is added. -/
theorem file?_add (h : session.file? number = some file) (path : String) (text : Text) :
    (session.add path text).2.file? number = some file := by
  rw [file?] at h ⊢
  rw [add, List.getElem?_append_left (List.getElem?_eq_some_iff.mp h).1, h]

/-- A file after one file was set. -/
theorem file?_set (h : session.file? number = some file) (target : Nat) (text : Text) :
    (session.set target text).file? number =
      some { file with text := if target = number then text else file.text } := by
  rw [file?] at h ⊢
  rw [set, List.getElem?_modify, h]
  split <;> rfl

theorem ask_of_file (h : session.file? number = some file)
    (answer : SourceFile → Answer × Session) : session.ask number answer = answer file := by
  rw [ask, h]

/-- What is asked about a file that is not changed leaves the session as it is. -/
theorem ask_snd (session : Session) (number : Nat) (answer : SourceFile → Answer) :
    (session.ask number fun it => (answer it, session)).2 = session := by
  rw [ask]
  split <;> rfl

/-- An `apply` to a file that is there fails and leaves the session as it is, or it sets the file to
    the text that the edits give. -/
theorem step_apply (h : session.file? number = some file) (offset : Nat) (id : AssistId) :
    (∃ error, file.apply session.config offset id = .error error ∧
      session.step (.apply number offset id) = (.change (.error error), session)) ∨
    ∃ change, file.resolve session.config offset id = .ok change ∧
      (Parse.file (change.apply file.text)).diagnostics.length ≤ file.diagnostics.length ∧
      session.step (.apply number offset id) =
        (.change (.ok change), session.set number (change.apply file.text)) := by
  have hstep : session.step (.apply number offset id) =
      match session.apply number offset id with
      | some (result, next) => (.change result, next)
      | none => (.missing, session) := rfl
  rw [hstep, apply, h, Option.map_some]
  -- Refused, resolved with more diagnostics than before, or written.
  rcases file.apply_cases session.config offset id with
    ⟨error, _, herror⟩ | ⟨change, hchange, ⟨_, herror⟩ | ⟨hfewer, hok⟩⟩
  · rw [herror]
    exact .inl ⟨error, rfl, rfl⟩
  · rw [herror]
    exact .inl ⟨_, rfl, rfl⟩
  · rw [hok]
    exact .inr ⟨change, hchange, hfewer, rfl⟩

theorem step_apply_missing (h : session.file? number = none) (offset : Nat) (id : AssistId) :
    session.step (.apply number offset id) = (.missing, session) := by
  rw [step, apply, h]
  rfl

/-- What is set stays as it is. -/
theorem config_step (session : Session) (request : Request) :
    (session.step request).2.config = session.config := by
  cases request with
  | add path text => rfl
  | set target text =>
    rw [step, ask]
    split <;> rfl
  | text target | diagnostics target | assists target offset | resolve target offset id =>
    rw [step, ask_snd]
  | apply target offset id =>
    rcases htarget : session.file? target with _ | it
    · rw [step_apply_missing htarget]
    · rcases step_apply htarget offset id with ⟨_, _, hstep⟩ | ⟨_, _, _, hstep⟩ <;> rw [hstep]
      rfl

/-- After one request a file has the text that the request writes to it, or the one that it had. -/
theorem file?_step (h : session.file? number = some file) (request : Request) :
    (session.step request).2.file? number = some { file with
      text := ((Event.mk request (session.step request).1).write? number file.text).getD
        file.text } := by
  have hkept : session.file? number = some { file with text := file.text } := h
  cases request with
  | add path text => exact file?_add hkept path text
  | set target text =>
    rcases htarget : session.file? target with _ | it
    · rw [step, ask, htarget]
      exact hkept
    · rw [step, ask_of_file htarget, file?_set h]
      simp only [Event.write?]
      split <;> rfl
  | text target | diagnostics target | assists target offset | resolve target offset id =>
    rw [step, ask_snd]
    exact hkept
  | apply target offset id =>
    rcases htarget : session.file? target with _ | it
    · rw [step_apply_missing htarget]
      exact hkept
    rcases step_apply htarget offset id with ⟨error, _, hstep⟩ | ⟨change, _, _, hstep⟩
    · rw [hstep]
      exact hkept
    · rw [hstep, file?_set h]
      -- Where the request is about the file, the edits are applied to its text.
      by_cases hnumber : target = number
      · rw [hnumber, h, Option.some.injEq] at htarget
        simp only [Event.write?, if_pos hnumber, Option.getD_some, htarget]
      · simp only [Event.write?, if_neg hnumber, Option.getD_none]

/-- One request does not make a file worse, unless it sets the file. -/
theorem diagnostics_step (h : session.file? number = some file) {request : Request}
    (hset : ∀ text, request ≠ .set number text) {next : SourceFile}
    (hnext : (session.step request).2.file? number = some next) :
    next.diagnostics.length ≤ file.diagnostics.length := by
  rw [file?_step h, Option.some.injEq] at hnext
  rw [← hnext]
  -- The file changes only if the step writes to it.
  rcases hwrite : (Event.mk request (session.step request).1).write? number file.text with _ | new
  · exact Nat.le_refl _
  rw [Option.getD_some]
  rcases Event.write?_eq_some hwrite with hevent | ⟨offset, id, change, hevent, rfl⟩
  · exact absurd (congrArg Event.request hevent) (hset new)
  · -- What an `apply` writes was compared with the file before.
    have hrequest : request = .apply number offset id := congrArg Event.request hevent
    have hanswer : (session.step request).1 = .change (.ok change) := congrArg Event.answer hevent
    rw [hrequest] at hanswer
    rcases step_apply h offset id with ⟨error, _, hstep⟩ | ⟨found, _, hfewer, hstep⟩
    · rw [hstep] at hanswer
      exact absurd (Answer.change.inj hanswer) nofun
    · rw [hstep] at hanswer
      rwa [← Except.ok.inj (Answer.change.inj hanswer)]

end Step

/-! ## Runs -/

section Run

variable {number : Nat} {file : SourceFile}

theorem config_run (session : Session) (requests : List Request) :
    (session.run requests).2.config = session.config := by
  induction requests generalizing session with
  | nil => rfl
  | cons request more ih => exact (ih _).trans (config_step session request)

/-- After a run the text of a file is what the writes to the file made of it. -/
theorem file?_run {session : Session} (h : session.file? number = some file)
    (requests : List Request) :
    (session.run requests).2.file? number =
      some { file with text := written number (session.run requests).1 file.text } := by
  -- The first request hands its file on to the rest of the run, so both are kept general.
  induction requests generalizing session file with
  | nil => exact h
  | cons request more ih => exact ih (file?_step h request)

/-- A run does not make a file worse that it does not set. -/
theorem diagnostics_run {session : Session} (h : session.file? number = some file)
    {requests : List Request} (hset : ∀ text, .set number text ∉ requests) {last : SourceFile}
    (hlast : (session.run requests).2.file? number = some last) :
    last.diagnostics.length ≤ file.diagnostics.length := by
  induction requests generalizing session file with
  | nil =>
    have hsame : session.file? number = some last := hlast
    rw [h, Option.some.injEq] at hsame
    exact hsame ▸ Nat.le_refl _
  | cons request more ih =>
    have hnext := file?_step h request
    exact Nat.le_trans (ih hnext (fun text hmem => hset text (List.mem_cons_of_mem _ hmem)) hlast)
      (diagnostics_step h (fun text heq => hset text (heq ▸ List.mem_cons_self)) hnext)

end Run

/-- Whatever is asked of a session, a file changes only by a `set` of it or an `apply` to it that
    succeeds. An `apply` that fails leaves the whole session as it is, with the texts, the trees and
    the diagnostics of all files. One that succeeds gives the edits that `resolve` gives then, sets
    the text of its file to what they make of it, and adds no diagnostic; so a file without
    diagnostics has none until it is set. -/
theorem run_atomic (config : AssistConfig) (requests more : List Request) :
    let session := ((empty config).run requests).2
    let events := (session.run more).1
    let later := (session.run more).2
    session.config = config ∧
    (∀ number file, session.file? number = some file →
      ∃ last, later.file? number = some last ∧ last.path = file.path ∧
        last.text = written number events file.text ∧
        (last.text ≠ file.text → ∃ event ∈ events,
          (∃ text, event = ⟨.set number text, .done⟩) ∨
          ∃ offset id change, event = ⟨.apply number offset id, .change (.ok change)⟩) ∧
        ((∀ text, .set number text ∉ more) →
          last.diagnostics.length ≤ file.diagnostics.length ∧
          (file.diagnostics = [] → last.diagnostics = []))) ∧
    ∀ number offset id,
      (∀ error, (session.step (.apply number offset id)).1 = .change (.error error) →
        (session.step (.apply number offset id)).2 = session) ∧
      ∀ change, (session.step (.apply number offset id)).1 = .change (.ok change) →
        (session.step (.resolve number offset id)).1 = .change (.ok change) ∧
        ∃ file, session.file? number = some file ∧
          file.resolve config offset id = .ok change ∧
          (session.step (.apply number offset id)).2 =
            session.set number (change.apply file.text) ∧
          (Parse.file (change.apply file.text)).diagnostics.length ≤ file.diagnostics.length := by
  intro session events later
  have hconfig : session.config = config := config_run (empty config) requests
  refine ⟨hconfig, fun number file hfile => ?_, fun number offset id => ?_⟩
  -- What a run does to one file.
  · have hlast := file?_run hfile more
    refine ⟨_, hlast, rfl, rfl, fun hchanged => ?_, fun hset => ?_⟩
    · rcases exists_write hchanged with ⟨event, hevent, old, new, hwrite⟩
      refine ⟨event, hevent, ?_⟩
      rcases Event.write?_eq_some hwrite with hsets | ⟨offset, id, change, happlies, _⟩
      · exact .inl ⟨new, hsets⟩
      · exact .inr ⟨offset, id, change, happlies⟩
    · have hfewer := diagnostics_run hfile hset hlast
      refine ⟨hfewer, fun hclean => ?_⟩
      rw [hclean] at hfewer
      exact List.eq_nil_of_length_eq_zero (Nat.le_zero.mp hfewer)
  -- What one `apply` does to the session.
  · rcases hfile : session.file? number with _ | file
    · rw [step_apply_missing hfile]
      exact ⟨fun _ h => absurd h nofun, fun _ h => absurd h nofun⟩
    rcases step_apply hfile offset id with ⟨error, _, hstep⟩ | ⟨found, hfound, hfewer, hstep⟩
    · rw [hstep]
      exact ⟨fun _ _ => rfl, fun _ h => absurd (Answer.change.inj h) nofun⟩
    · rw [hstep]
      refine ⟨fun _ h => absurd (Answer.change.inj h) nofun, fun change h => ?_⟩
      rw [← Except.ok.inj (Answer.change.inj h)]
      have hresolve : session.step (.resolve number offset id) =
          (.change (file.resolve session.config offset id), session) := ask_of_file hfile _
      rw [hresolve, hfound]
      exact ⟨rfl, file, rfl, hconfig ▸ hfound, rfl, hfewer⟩

/-- Two files, an assist that succeeds on the first of them, and after that one that fails. -/
theorem run_atomic_two_files :
    let session := ((empty .default).run [.add "a.php" "<?php $x = $c ? 1 : 2;".toList,
      .add "b.php" "<?php $s = 'a' . ;".toList]).2
    let more := [Request.apply 0 14 .ternaryToIfElse, .diagnostics 1, .apply 0 14 .concatToHeredoc]
    ∃ file last change,
      session.file? 0 = some file ∧ (session.run more).2.file? 0 = some last ∧
        last.text = "<?php $x; if ($c) \x7b $x = 1; \x7d else \x7b $x = 2; \x7d".toList ∧
        last.text = written 0 (session.run more).1 file.text ∧ last.diagnostics = [] ∧
        (session.step (.apply 0 14 .ternaryToIfElse)).1 = .change (.ok change) ∧
        (session.step (.resolve 0 14 .ternaryToIfElse)).1 = .change (.ok change) := by
  intro session more
  have hall := run_atomic .default [.add "a.php" "<?php $x = $c ? 1 : 2;".toList,
    .add "b.php" "<?php $s = 'a' . ;".toList] more
  have hfile : session.file? 0 = some ⟨"a.php", "<?php $x = $c ? 1 : 2;".toList⟩ := rfl
  obtain ⟨hclean, htext, happlies⟩ :
      (Parse.file "<?php $x = $c ? 1 : 2;".toList).diagnostics = [] ∧
      ((session.run more).2.file? 0).map SourceFile.text =
        some "<?php $x; if ($c) \x7b $x = 1; \x7d else \x7b $x = 2; \x7d".toList ∧
      (match (session.step (.apply 0 14 .ternaryToIfElse)).1 with
        | .change (.ok _) => true
        | _ => false) = true := by
    decide +kernel
  rcases hall.2.1 0 _ hfile with ⟨last, hlast, _, hwritten, _, hset⟩
  have hkept := hset fun text hmem => by
    simp only [more, List.mem_cons, reduceCtorEq, List.not_mem_nil, or_self] at hmem
  have hnew : (session.run more).2.file? 0 = some last := hlast
  rw [hnew, Option.map_some, Option.some.injEq] at htext
  split at happlies
  · rename_i change hchange
    exact ⟨_, last, change, hfile, hnew, htext, hwritten, hkept.2 hclean, hchange,
      ((hall.2.2 0 14 .ternaryToIfElse).2 change hchange).1⟩
  · exact absurd happlies Bool.false_ne_true

end Session

end PhpAssist

import Lexicon.Proofs.Segment.Failures
import Lexicon.Proofs.Segment.Tallies
import Mathlib.Data.List.ModifyLast

/-!
# Sessions as scripts

A session goes on call by call, and a call can be refused. A script says what is done with each
field and has no refusals. The calls of a session that succeeded are a script (`Session.scripts`):
a field that is still open, or was given up, is one that is not finished.

> **`Session.Recorded.history`** — as long as nothing failed, a session has done what its script
> does; and once something failed, what was finished before is still counted;
> **`Session.ended_of_given`** — so a session that gives its sinks has run its script to the end.
-/

namespace Lexicon

variable {σ : Type}

/-! ## What was done -/

namespace FieldScript

/-- The field with one step more. -/
def step (s : FieldScript) (step : FieldStep) : FieldScript := { s with steps := s.steps ++ [step] }

end FieldScript

namespace Exchange

/-- The fields so far, with what one more call does to the last of them if it succeeds. -/
def noted (scripts : List FieldScript) (x : Exchange σ) : List FieldScript :=
  match x.request, x.reply with
  | .openField info, .ok _ => scripts ++ [{ info, steps := [], finished := false }]
  | .write term state, .ok _ => scripts.modifyLast (·.step (.write term state))
  | .record docs, .ok _ => scripts.modifyLast (·.step (.record docs))
  | .finish, .ok _ => scripts.modifyLast fun s => { s with finished := true }
  | _, _ => scripts

/-- The summary that a call gave. -/
def summary? (x : Exchange σ) : Option FieldSummary :=
  match x.reply with
  | .ok (.summary s) => some s
  | _ => none

/-- The sinks that a call gave. -/
def sinks? (x : Exchange σ) : Option (Streams σ) :=
  match x.reply with
  | .ok (.sinks s) => some s
  | _ => none

/-- The sinks that are given are the reply. -/
theorem reply_of_sinks? {x : Exchange σ} {sinks : Streams σ} (h : x.sinks? = some sinks) :
    x.reply = .ok (.sinks sinks) := by
  unfold sinks? at h
  split at h
  next hreply => rw [hreply, Option.some.inj h]
  next => cases h

end Exchange

namespace Session

/-- What was done with each field that was opened, in order. -/
def scripts (h : List (Exchange σ)) : List FieldScript := h.foldl Exchange.noted []

/-- The summaries of the fields that were finished, in order. -/
def summaries (h : List (Exchange σ)) : List FieldSummary := h.filterMap Exchange.summary?

end Session

/-! ## Scripts, one step longer -/

section

variable [Sink σ]

/-- The steps of a field run one part after the other. -/
theorem FieldWriter.run_append (steps more : List FieldStep) : ∀ f : FieldWriter,
    (f.run (steps ++ more) : Writer.Call σ FieldWriter) = f.run steps >>= fun f => f.run more := by
  induction steps with
  | nil => exact fun f => (pure_bind f fun f => f.run more).symm
  | cons step steps ih =>
    intro f
    cases step with
    | write term state =>
      show f.write term state >>= (fun f => f.run (steps ++ more))
        = (f.write term state >>= fun f => f.run steps) >>= fun f => f.run more
      rw [bind_assoc]
      exact congrArg _ (funext ih)
    | record docs => exact ih (f.record docs)

theorem Writer.runAll_append (scripts more : List FieldScript) :
    (runAll (scripts ++ more) : Call σ Unit) = runAll scripts >>= fun _ => runAll more := by
  induction scripts with
  | nil => exact (pure_bind () fun _ => runAll more).symm
  | cons s scripts ih =>
    show s.run >>= (fun _ => runAll (scripts ++ more))
      = (s.run >>= fun _ => runAll scripts) >>= fun _ => runAll more
    rw [bind_assoc, ih]

/-- A script is run behind others. -/
theorem Writer.runAll_concat {scripts : List FieldScript} {s : FieldScript} {w₀ w₁ w : Writer σ}
    (hfront : runAll scripts w₀ = .ok () w₁) (hlast : s.run w₁ = .ok () w) :
    runAll (scripts ++ [s]) w₀ = .ok () w := by
  rw [runAll_append, bind_ok hfront]
  show (s.run >>= fun _ => pure () : Call σ Unit) w₁ = _
  rw [bind_ok hlast]
  rfl

end

/-! ## Sessions do what their scripts do -/

namespace Session

variable [Sink σ]

/-- The session is where the script leads from this writer. -/
inductive Scripted (w₀ : Writer σ) : List FieldScript → Session σ → Prop
  | between {scripts : List FieldScript} {w : Writer σ}
      (run : Writer.runAll scripts w₀ = .ok () w) : Scripted w₀ scripts (idle w)
  | within {scripts : List FieldScript} {info : FieldInfo} {steps : List FieldStep}
      {w₁ w₂ w : Writer σ} {f₁ f : FieldWriter} (run : Writer.runAll scripts w₀ = .ok () w₁)
      (opened : Writer.openField info w₁ = .ok f₁ w₂) (stepped : f₁.run steps w₂ = .ok f w) :
      Scripted w₀ (scripts ++ [{ info, steps, finished := false }]) (inField f w)
  | ended {scripts : List FieldScript} {w₁ w : Writer σ} {s : Session σ}
      (run : Writer.runAll scripts w₀ = .ok () w₁) (close : Writer.close w₁ = .ok () w)
      (whole : s = .idle w ∨ s = spent w) : Scripted w₀ scripts s

/-- What is known of a session: where it is, or that something has failed, and then what was
finished before. -/
inductive Recorded (w₀ : Writer σ) (scripts : List FieldScript) (s : Session σ) : Prop
  | sound (scripted : s.Scripted w₀ scripts)
  | failed (failed : s.writer.failed = true)
      (tally : s.writer.Tally (scripts.filter (·.finished)))
      (unfinished : ∀ f w, s = inField f w →
        ∃ before last, scripts = before ++ [last] ∧ last.finished = false)

variable {w₀ w w' : Writer σ} {scripts : List FieldScript} {s after : Session σ}
  {f f' : FieldWriter} {request : Request} {reply : Except Error (Reply σ)}

/-- A field that is not finished does not count. -/
theorem filter_unfinished {before : List FieldScript} {last : FieldScript}
    (h : last.finished = false) :
    (before ++ [last]).filter (·.finished) = before.filter (·.finished) := by
  rw [List.filter_append, List.filter_cons_of_neg (by simp [h]), List.filter_nil, List.append_nil]

/-- A field that is given up is one that is not finished. -/
theorem Scripted.leave (h : (inField f w).Scripted w₀ scripts) : (idle w).Scripted w₀ scripts := by
  cases h with
  | within run opened stepped =>
    refine .between (Writer.runAll_concat run ?_)
    rw [FieldScript.run, bind_ok opened, bind_ok stepped]
    rfl
  | ended run close whole => rcases whole with h | h <;> cases h

/-- One step of the open field. -/
theorem Scripted.step (h : (inField f w).Scripted w₀ scripts) {step : FieldStep}
    (hstep : f.run [step] w = .ok f' w') :
    (inField f' w').Scripted w₀ (scripts.modifyLast (·.step step)) := by
  cases h with
  | within run opened stepped =>
    rw [List.modifyLast_concat]
    refine .within run opened ?_
    rw [FieldWriter.run_append, bind_ok stepped, hstep]
  | ended run close whole => rcases whole with h | h <;> cases h

/-- The open field is finished. -/
theorem Scripted.finish (h : (inField f w).Scripted w₀ scripts) {summary : FieldSummary}
    (hfinish : f.finish w = .ok summary w') :
    (idle w').Scripted w₀ (scripts.modifyLast fun s => { s with finished := true }) := by
  cases h with
  | within run opened stepped =>
    rw [List.modifyLast_concat]
    refine .between (Writer.runAll_concat run ?_)
    rw [FieldScript.run, bind_ok opened, bind_ok stepped]
    show (f.finish >>= fun _ => pure () : Writer.Call σ Unit) w = _
    rw [bind_ok hfinish]
    rfl
  | ended run close whole => rcases whole with h | h <;> cases h

/-- A segment that was ended stays as it is. -/
theorem Scripted.close (h : (idle w).Scripted w₀ scripts) (hclose : Writer.close w = .ok () w') :
    ∃ w₁, Writer.runAll scripts w₀ = .ok () w₁ ∧ Writer.close w₁ = .ok () w' := by
  cases h with
  | between run => exact ⟨w, run, hclose⟩
  | @ended _ w₁ _ _ run close whole =>
    rcases whole with h | h <;> cases h
    obtain ⟨-, hsound, hclosed, -⟩ := Writer.close_ok close
    cases (Ended.close_eq hclosed hsound).symm.trans hclose
    exact ⟨w₁, run, close⟩

/-- A field is only opened in a segment that was not ended. -/
theorem Scripted.open_field (h : (idle w).Scripted w₀ scripts) {info : FieldInfo}
    (hopen : Writer.openField info w = .ok f w') :
    (inField f w').Scripted w₀ (scripts ++ [{ info, steps := [], finished := false }]) := by
  cases h with
  | between run => exact .within run hopen rfl
  | ended run close whole =>
    rcases whole with h | h <;> cases h
    have hclosed := (Writer.close_ok close).2.2.1
    rw [(Writer.openField_ok_cases hopen).2.1] at hclosed
    cases hclosed

/-- A session that ran some scripts has the tally of the finished ones. -/
theorem Scripted.tally (hstart : w₀.Tally []) (h : s.Scripted w₀ scripts) :
    s.writer.Tally (scripts.filter (·.finished)) := by
  cases h with
  | between run => exact hstart.runAll scripts run
  | @within scripts info steps w₁ w₂ w f₁ f run opened stepped =>
    rw [filter_unfinished rfl]
    obtain rfl := (Writer.of_openField_ok opened).1
    obtain ⟨-, -, -, hgrew⟩ := FieldWriter.run_tallied steps stepped (FieldWriter.tallied_new info)
    exact ((hstart.runAll scripts run).open_field opened).grew hgrew
  | @ended _ w₁ w _ run close whole =>
    have htally := (hstart.runAll scripts run).grew (Writer.keeps_close.ok close)
    rcases whole with rfl | rfl <;> exact htally

/-- **One call keeps the record.** -/
theorem Recorded.step (hstart : w₀.Tally []) (h : s.Recorded w₀ scripts)
    (hstep : Step s request reply after) :
    after.Recorded w₀ (Exchange.noted scripts ⟨s, request, reply, after⟩) := by
  cases h with
  | sound scripted =>
    have htally := scripted.tally hstart
    cases hstep with
    | opened hopen => exact .sound (scripted.open_field hopen)
    | notOpened hopen =>
      obtain rfl := Writer.openField_error hopen
      exact .sound scripted
    | written hwrite => exact .sound (scripted.step (bind_ok hwrite))
    | notWritten hwrite =>
      rcases FieldWriter.write_error_cases hwrite with rfl | ⟨hfailed, -⟩
      · exact .sound scripted
      · refine .failed hfailed (htally.grew ((FieldWriter.keeps_write _ _ _).error hwrite)) ?_
        rintro _ _ ⟨⟩
        cases scripted with
        | within => exact ⟨_, _, rfl, rfl⟩
        | ended run close whole => rcases whole with h | h <;> cases h
    | recorded => exact .sound (scripted.step rfl)
    | finished hfinish => exact .sound (scripted.finish hfinish)
    | notFinished hfinish =>
      exact .failed (FieldWriter.finish_error hfinish)
        (htally.grew (FieldWriter.grew_of_finish_error hfinish)) fun _ _ h => by cases h
    | dropped => exact .sound scripted.leave
    | closed hclose =>
      obtain ⟨w₁, hrun, hclose⟩ := scripted.close hclose
      exact .sound (.ended hrun hclose (.inl rfl))
    | given hclose =>
      obtain ⟨w₁, hrun, hclose⟩ := scripted.close hclose
      exact .sound (.ended hrun hclose (.inr rfl))
    | notClosed hclose | notGiven hclose =>
      exact .failed (Writer.close_error hclose)
        (htally.grew (Writer.keeps_close.error hclose)) fun _ _ h => by cases h
  | failed hfailed tally unfinished =>
    obtain ⟨hwriter, hrefused⟩ := hstep.of_failed hfailed
    have hfailed' : after.writer.failed = true := by rw [hwriter, hfailed]
    rw [← hwriter] at tally
    cases hstep with
    | opened | written | finished | closed | given => cases hrefused rfl
    | notOpened | notFinished | notClosed | notGiven | dropped =>
      exact .failed hfailed' tally fun _ _ h => by cases h
    | notWritten =>
      refine .failed hfailed' tally ?_
      rintro _ _ ⟨⟩
      exact unfinished _ _ rfl
    | recorded =>
      obtain ⟨before, last, rfl, hlast⟩ := unfinished _ _ rfl
      rw [Exchange.noted]
      simp only
      rw [List.modifyLast_concat]
      refine .failed hfailed' ?_ fun _ _ _ => ⟨before, _, rfl, hlast⟩
      rw [filter_unfinished hlast] at tally
      rwa [filter_unfinished (show (last.step _).finished = false from hlast)]

/-- **A whole session keeps the record.** -/
theorem Recorded.history (hstart : w₀.Tally []) (requests : List Request) :
    ∀ {s : Session σ} {scripts : List FieldScript}, s.Recorded w₀ scripts →
      (s.final requests).Recorded w₀ ((s.history requests).foldl Exchange.noted scripts) := by
  induction requests with
  | nil => exact fun h => h
  | cons request rest ih =>
    intro s scripts h
    cases hturn : s.turn request with
    | none =>
      rw [history_cons_none hturn, final_cons_none hturn]
      exact ih h
    | some result =>
      obtain ⟨reply, after⟩ := result
      rw [history_cons hturn, final_cons hturn, List.foldl_cons]
      exact ih (h.step hstart (step_of_turn hturn))

/-- What is known of a session that started with a writer. -/
theorem recorded_history (hstart : w₀.Tally []) (requests : List Request) :
    ((idle w₀).final requests).Recorded w₀ (Session.scripts ((idle w₀).history requests)) :=
  Recorded.history hstart requests (.sound (.between rfl))

/-- **The fields that a session finished are counted**, whatever came between. -/
theorem tally_history (hstart : w₀.Tally []) (requests : List Request) :
    ((idle w₀).final requests).writer.Tally
      ((Session.scripts ((idle w₀).history requests)).filter (·.finished)) := by
  cases recorded_history hstart requests with
  | sound scripted => exact scripted.tally hstart
  | failed _ tally _ => exact tally

/-! ## What a session gives -/

/-- A call gives the summary that it adds to those of the writer. -/
theorem Step.summaries (hstep : Step s request reply after) :
    after.writer.summaries
      = s.writer.summaries ++ (Exchange.mk s request reply after).summary?.toList := by
  cases hstep with
  | opened hopen =>
    obtain ⟨-, -, rfl⟩ := Writer.openField_ok_cases hopen
    exact (List.append_nil _).symm
  | notOpened hopen =>
    obtain rfl := Writer.openField_error hopen
    exact (List.append_nil _).symm
  | written hwrite =>
    exact ((FieldWriter.keeps_write _ _ _).ok hwrite).summaries.trans (List.append_nil _).symm
  | notWritten hwrite =>
    exact ((FieldWriter.keeps_write _ _ _).error hwrite).summaries.trans (List.append_nil _).symm
  | recorded | dropped => exact (List.append_nil _).symm
  | finished hfinish =>
    obtain ⟨w₁, hcomplete, rfl⟩ := FieldWriter.of_finish_ok hfinish
    have hsame := ((FieldWriter.keeps_complete _).ok hcomplete).summaries
    show w₁.summaries ++ _ = _
    rw [hsame]
    rfl
  | notFinished hfinish =>
    exact (FieldWriter.grew_of_finish_error hfinish).summaries.trans (List.append_nil _).symm
  | closed hclose | given hclose =>
    exact (Writer.keeps_close.ok hclose).summaries.trans (List.append_nil _).symm
  | notClosed hclose | notGiven hclose =>
    exact (Writer.keeps_close.error hclose).summaries.trans (List.append_nil _).symm

/-- **The summaries that a session gives are those that its writer has.** -/
theorem summaries_history (requests : List Request) : ∀ s : Session σ,
    (s.final requests).writer.summaries = s.writer.summaries ++ summaries (s.history requests) := by
  induction requests with
  | nil => exact fun s => (List.append_nil _).symm
  | cons request rest ih =>
    intro s
    cases hturn : s.turn request with
    | none =>
      rw [history_cons_none hturn, final_cons_none hturn]
      exact ih s
    | some result =>
      obtain ⟨reply, after⟩ := result
      rw [history_cons hturn, final_cons hturn, ih after, (step_of_turn hturn).summaries,
        List.append_assoc, summaries, summaries, List.filterMap_cons]
      cases (Exchange.mk s request reply after).summary? <;> rfl

/-- A session that is spent stays as it is. -/
theorem final_spent (w : Writer σ) (requests : List Request) :
    (spent w).final requests = spent w := by
  induction requests with
  | nil => rfl
  | cons request rest ih => rw [final_cons_none (by cases request <;> rfl), ih]

/-- A session that gives its sinks is over. -/
theorem final_of_given {sinks : Streams σ} (requests : List Request) : ∀ {s : Session σ},
    (∃ x ∈ s.history requests, x.reply = .ok (.sinks sinks)) →
      ∃ w, s.final requests = spent w ∧ w.failed = false ∧
        sinks = ⟨w.terms.sink, w.index.sink, w.directory.sink⟩ := by
  induction requests with
  | nil => exact fun ⟨x, hx, _⟩ => nomatch hx
  | cons request rest ih =>
    rintro s ⟨x, hx, hreply⟩
    cases hturn : s.turn request with
    | none =>
      rw [history_cons_none hturn] at hx
      rw [final_cons_none hturn]
      exact ih ⟨x, hx, hreply⟩
    | some result =>
      obtain ⟨reply, after⟩ := result
      rw [history_cons hturn] at hx
      rw [final_cons hturn]
      rcases List.mem_cons.mp hx with rfl | hx
      · obtain rfl : reply = _ := hreply
        cases step_of_turn hturn with
        | given hclose => exact ⟨_, final_spent _ rest, (Writer.close_ok hclose).2.1, rfl⟩
      · exact ih ⟨x, hx, hreply⟩

/-- **A session that gives its sinks has done what its script does**, and ended the segment. -/
theorem ended_of_given (hstart : w₀.Tally []) {requests : List Request} {sinks : Streams σ}
    (hgiven : ∃ x ∈ (idle w₀).history requests, x.reply = .ok (.sinks sinks)) :
    ∃ w₁ w₂, Writer.runAll (Session.scripts ((idle w₀).history requests)) w₀ = .ok () w₁ ∧
      Writer.close w₁ = .ok () w₂ ∧ (idle w₀).final requests = spent w₂ ∧
      sinks = ⟨w₂.terms.sink, w₂.index.sink, w₂.directory.sink⟩ := by
  obtain ⟨w₂, hfinal, hsound, hsinks⟩ := final_of_given requests hgiven
  have hrecorded := recorded_history hstart requests
  rw [hfinal] at hrecorded
  generalize Session.scripts ((idle w₀).history requests) = scripts at hrecorded ⊢
  cases hrecorded with
  | sound scripted =>
    cases scripted with
    | ended run close whole =>
      rcases whole with h | h <;> cases h
      exact ⟨_, w₂, run, close, hfinal, hsinks⟩
  | failed hfailed =>
    have hfailed : w₂.failed = true := hfailed
    rw [hsound] at hfailed
    cases hfailed

end Session

end Lexicon

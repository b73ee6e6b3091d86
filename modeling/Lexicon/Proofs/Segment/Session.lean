import Lexicon.Proofs.Block.Faults
import Lexicon.Proofs.Segment.Calls

/-!
# Sessions with a segment writer

A session is what a caller does with a segment writer from one call to the next. A field has hold of
the writer while it is open, so a call can be made in some states only: `Session.turn` says which,
and what comes of it. `Session.history` is a whole row of calls, in any order, with their replies.

> **`Session.history_trimmed`** — leaving out every refused call, and every close after one that
> succeeded, changes neither the other replies nor where the session ends.

It goes call by call (`Session.Step`): one that can be left out ends where it began
(`Session.Step.redundant`), since what a call fails with after the writer began to do something is
no refusal (`Frontier.push_errors`).
-/

namespace Lexicon

/-- What can be asked of a segment writer, or of its open field. -/
inductive Request where
  | openField (info : FieldInfo)
  | write (term : Bytes) (state : TermState)
  | record (docs : DocList)
  | finish
  /-- Gives up the open field. -/
  | drop
  | close
  | intoStreams

/-- What a call gives. -/
inductive Reply (σ : Type) where
  | done
  | summary (s : FieldSummary)
  | sinks (s : Streams σ)

/-- A segment writer between two calls. -/
inductive Session (σ : Type) where
  /-- No field is open. -/
  | idle (w : Writer σ)
  | inField (f : FieldWriter) (w : Writer σ)
  /-- The writer was given up for its sinks. -/
  | spent (w : Writer σ)

/-- One call, with the states around it. -/
structure Exchange (σ : Type) where
  before : Session σ
  request : Request
  reply : Except Error (Reply σ)
  after : Session σ

namespace Session

variable {σ : Type}

def writer : Session σ → Writer σ
  | idle w | inField _ w | spent w => w

/-- The reply of a call on a writer and the state after it, which depends on whether the call
succeeds. -/
def answer {α : Type} (c : Writer.Call σ α) (w : Writer σ) (reply : α → Reply σ)
    (done : α → Writer σ → Session σ) (refused : Writer σ → Session σ) :
    Except Error (Reply σ) × Session σ :=
  match c w with
  | .ok a w => (.ok (reply a), done a w)
  | .error e w => (.error e, refused w)

variable [Sink σ]

/-- What comes of a request, where it can be made. -/
def turn : Session σ → Request → Option (Except Error (Reply σ) × Session σ)
  | idle w, .openField info =>
    some (answer (Writer.openField info) w (fun _ => .done) inField idle)
  | idle w, .close => some (answer Writer.close w (fun _ => .done) (fun _ => idle) idle)
  | idle w, .intoStreams => some (answer Writer.intoStreams w .sinks (fun _ => spent) spent)
  | inField f w, .write term state =>
    some (answer (f.write term state) w (fun _ => .done) inField (inField f))
  | inField f w, .record docs => some (.ok .done, inField (f.record docs) w)
  | inField f w, .finish => some (answer f.finish w .summary (fun _ => idle) idle)
  | inField _ w, .drop => some (.ok .done, idle w)
  | _, _ => none

/-- The calls of a row of requests, in order. A request that cannot be made where it stands is
passed over. -/
def history (s : Session σ) : List Request → List (Exchange σ)
  | [] => []
  | request :: rest =>
    match s.turn request with
    | none => s.history rest
    | some (reply, after) => ⟨s, request, reply, after⟩ :: after.history rest

/-- The state after a row of requests. -/
def final (s : Session σ) : List Request → Session σ
  | [] => s
  | request :: rest =>
    match s.turn request with
    | none => s.final rest
    | some (_, after) => after.final rest

theorem history_cons {s : Session σ} {request : Request} {reply : Except Error (Reply σ)}
    {after : Session σ} (h : s.turn request = some (reply, after)) (rest : List Request) :
    s.history (request :: rest) = ⟨s, request, reply, after⟩ :: after.history rest := by
  rw [history, h]

theorem final_cons {s : Session σ} {request : Request} {reply : Except Error (Reply σ)}
    {after : Session σ} (h : s.turn request = some (reply, after)) (rest : List Request) :
    s.final (request :: rest) = after.final rest := by
  rw [final, h]

theorem history_cons_none {s : Session σ} {request : Request} (h : s.turn request = none)
    (rest : List Request) : s.history (request :: rest) = s.history rest := by
  rw [history, h]

theorem final_cons_none {s : Session σ} {request : Request} (h : s.turn request = none)
    (rest : List Request) : s.final (request :: rest) = s.final rest := by
  rw [final, h]

/-- What one call comes to, each way in which it can end apart. -/
inductive Step : Session σ → Request → Except Error (Reply σ) → Session σ → Prop
  | opened {w w' : Writer σ} {info : FieldInfo} {f : FieldWriter}
      (h : Writer.openField info w = .ok f w') :
      Step (idle w) (.openField info) (.ok .done) (inField f w')
  | notOpened {w w' : Writer σ} {info : FieldInfo} {e : Error}
      (h : Writer.openField info w = .error e w') :
      Step (idle w) (.openField info) (.error e) (idle w')
  | written {w w' : Writer σ} {f f' : FieldWriter} {term : Bytes} {state : TermState}
      (h : f.write term state w = .ok f' w') :
      Step (inField f w) (.write term state) (.ok .done) (inField f' w')
  | notWritten {w w' : Writer σ} {f : FieldWriter} {term : Bytes} {state : TermState} {e : Error}
      (h : f.write term state w = .error e w') :
      Step (inField f w) (.write term state) (.error e) (inField f w')
  | recorded {w : Writer σ} {f : FieldWriter} {docs : DocList} :
      Step (inField f w) (.record docs) (.ok .done) (inField (f.record docs) w)
  | finished {w w' : Writer σ} {f : FieldWriter} {summary : FieldSummary}
      (h : f.finish w = .ok summary w') :
      Step (inField f w) .finish (.ok (.summary summary)) (idle w')
  | notFinished {w w' : Writer σ} {f : FieldWriter} {e : Error} (h : f.finish w = .error e w') :
      Step (inField f w) .finish (.error e) (idle w')
  | dropped {w : Writer σ} {f : FieldWriter} : Step (inField f w) .drop (.ok .done) (idle w)
  | closed {w w' : Writer σ} (h : Writer.close w = .ok () w') :
      Step (idle w) .close (.ok .done) (idle w')
  | notClosed {w w' : Writer σ} {e : Error} (h : Writer.close w = .error e w') :
      Step (idle w) .close (.error e) (idle w')
  | given {w w' : Writer σ} (h : Writer.close w = .ok () w') :
      Step (idle w) .intoStreams
        (.ok (.sinks ⟨w'.terms.sink, w'.index.sink, w'.directory.sink⟩)) (spent w')
  | notGiven {w w' : Writer σ} {e : Error} (h : Writer.close w = .error e w') :
      Step (idle w) .intoStreams (.error e) (spent w')

omit [Sink σ] in
/-- An answer is that of a call that succeeded or of one that failed. -/
theorem answer_cases {α : Type} {c : Writer.Call σ α} {w : Writer σ} {reply : α → Reply σ}
    {done : α → Writer σ → Session σ} {refused : Writer σ → Session σ}
    {result : Except Error (Reply σ) × Session σ}
    (h : some (answer c w reply done refused) = some result) :
    (∃ a w', c w = .ok a w' ∧ result = (.ok (reply a), done a w')) ∨
      ∃ e w', c w = .error e w' ∧ result = (.error e, refused w') := by
  obtain rfl := Option.some.inj h
  unfold answer
  split
  · exact .inl ⟨_, _, ‹_›, rfl⟩
  · exact .inr ⟨_, _, ‹_›, rfl⟩

/-- **Every call comes to one of these.** -/
theorem step_of_turn {s after : Session σ} {request : Request} {reply : Except Error (Reply σ)}
    (h : s.turn request = some (reply, after)) : Step s request reply after := by
  cases s with
  | idle w =>
    cases request with
    | openField info =>
      obtain ⟨f, w', hopen, ⟨⟩⟩ | ⟨e, w', hopen, ⟨⟩⟩ := answer_cases h
      · exact .opened hopen
      · exact .notOpened hopen
    | close =>
      obtain ⟨_, w', hclose, ⟨⟩⟩ | ⟨e, w', hclose, ⟨⟩⟩ := answer_cases h
      · exact .closed hclose
      · exact .notClosed hclose
    | intoStreams =>
      have hstreams := Writer.intoStreams_eq w
      cases hclose : Writer.close w with
      | ok _ w₁ =>
        rw [hclose] at hstreams
        obtain ⟨sinks, w', hgiven, ⟨⟩⟩ | ⟨e, w', hgiven, ⟨⟩⟩ := answer_cases h <;>
          cases hstreams.symm.trans hgiven
        exact .given hclose
      | error e₁ w₁ =>
        rw [hclose] at hstreams
        obtain ⟨sinks, w', hgiven, ⟨⟩⟩ | ⟨e, w', hgiven, ⟨⟩⟩ := answer_cases h <;>
          cases hstreams.symm.trans hgiven
        exact .notGiven hclose
    | write | record | finish | drop => cases h
  | inField f w =>
    cases request with
    | write term state =>
      obtain ⟨f', w', hwrite, ⟨⟩⟩ | ⟨e, w', hwrite, ⟨⟩⟩ := answer_cases h
      · exact .written hwrite
      · exact .notWritten hwrite
    | record docs =>
      cases h
      exact .recorded
    | finish =>
      obtain ⟨summary, w', hfinish, ⟨⟩⟩ | ⟨e, w', hfinish, ⟨⟩⟩ := answer_cases h
      · exact .finished hfinish
      · exact .notFinished hfinish
    | drop =>
      cases h
      exact .dropped
    | openField | close | intoStreams => cases h
  | spent w => cases request <;> cases h

end Session

/-! ## Calls that can be left out -/

namespace Exchange

variable {σ : Type}

/-- Whether the call ended the segment. -/
def ends (x : Exchange σ) : Bool :=
  match x.request, x.reply with
  | .close, .ok _ => true
  | _, _ => false

/-- Whether the call was refused for what it asked for, or is a close after one that succeeded. -/
def redundant (ended : Bool) (x : Exchange σ) : Bool :=
  match x.request, x.reply with
  | .write .., .error (.termOutOfOrder ..) => true
  | .write .., .error (.invalidTermState _) => true
  | .openField _, .error (.fieldOutOfOrder ..) => true
  | .openField _, .error .closed => true
  | .close, _ => ended
  | _, _ => false

/-- What is left of a row of calls without the redundant ones. Whether a close succeeded before them
is told. -/
def trimmed : Bool → List (Exchange σ) → List (Exchange σ)
  | _, [] => []
  | ended, x :: rest =>
    if x.redundant ended then trimmed ended rest else x :: trimmed (ended || x.ends) rest

end Exchange

/-- What happens to the streams fails with no refusal. -/
theorem Output.items_errors {σ : Type} [Sink σ] (items : List Item) :
    NeverRefuses (Output.items items : Write σ Unit) := by
  unfold Output.items
  induction items.flatMap Item.pieces with
  | nil => exact neverRefuses_pure ()
  | cons bs rest ih =>
    refine NeverRefuses.bind ?_ fun _ => ih
    intro out e out' h
    unfold portion at h
    split at h
    · cases h
    · split at h <;> cases h
      rfl

/-- An emission that refuses nothing refuses nothing as a call. -/
theorem Writer.emit_errors {σ α : Type} [Sink σ] {e : Emit α} (he : NeverRefuses e) :
    NeverRefuses (Writer.emit e : Writer.Call σ α) := by
  intro w error w' h
  rw [emit_eq] at h
  split at h
  next hout =>
    cases h
    exact he _ _ _ hout
  next =>
    split at h
    next hitems =>
      cases h
      exact Output.items_errors _ _ _ _ hitems
    next => cases h

/-- A write that is refused leaves the writer as it was. -/
theorem FieldWriter.write_refusal {σ : Type} [Sink σ] {f : FieldWriter} {term : Bytes}
    {state : TermState} {w w' : Writer σ} {e : Error} (h : f.write term state w = .error e w')
    (he : e.isRefusal = true) : w' = w := by
  rcases write_error_cases h with hsame | ⟨-, w₁, hemit⟩
  · exact hsame
  · -- the emission has failed, so the error is no refusal
    have hnot := Writer.emit_errors (Frontier.push_errors _ _ _ _ _) _ _ _ hemit
    rw [he] at hnot
    cases hnot

namespace Session

variable {σ : Type} [Sink σ]

/-- The segment is whole: the writer is closed and has not failed, and no field is open. -/
def Ended (s : Session σ) : Prop :=
  ∃ w, (s = idle w ∨ s = spent w) ∧ w.closed = true ∧ w.failed = false

/-- Closing again does nothing. -/
theorem Ended.close_eq {w : Writer σ} (hclosed : w.closed = true) (hsound : w.failed = false) :
    Writer.close w = .ok () w := by
  rw [Writer.close_eq, hsound, hclosed]
  rfl

/-- Nothing changes a segment that is whole, but that its sinks may be given away. -/
theorem Ended.step {s after : Session σ} {request : Request} {reply : Except Error (Reply σ)}
    (h : s.Ended) (hstep : Step s request reply after) :
    after.Ended ∧ (request = .close → after = s) := by
  obtain ⟨w, rfl | rfl, hclosed, hsound⟩ := h
  · have hclose := close_eq hclosed hsound
    cases hstep with
    | opened hopen =>
      have hopened := (Writer.openField_ok_cases hopen).2.1
      rw [hclosed] at hopened
      cases hopened
    | notOpened hopen =>
      obtain rfl := Writer.openField_error hopen
      exact ⟨⟨_, .inl rfl, hclosed, hsound⟩, nofun⟩
    | closed hclose' =>
      rw [hclose] at hclose'
      cases hclose'
      exact ⟨⟨w, .inl rfl, hclosed, hsound⟩, fun _ => rfl⟩
    | given hclose' =>
      rw [hclose] at hclose'
      cases hclose'
      exact ⟨⟨w, .inr rfl, hclosed, hsound⟩, nofun⟩
    | notClosed hclose' | notGiven hclose' =>
      rw [hclose] at hclose'
      cases hclose'
  · cases hstep

omit [Sink σ] in
/-- A redundant exchange with an error is a refusal. -/
theorem isRefusal_of_redundant {s after : Session σ} {term : Bytes} {state : TermState} {e : Error}
    {ended : Bool}
    (h : (Exchange.mk s (.write term state) (.error e) after).redundant ended = true) :
    e.isRefusal = true := by
  cases e <;> first | rfl | cases h

/-- **A call that can be left out does nothing.** -/
theorem Step.redundant {s after : Session σ} {request : Request} {reply : Except Error (Reply σ)}
    {ended : Bool} (hstep : Step s request reply after) (hended : ended = true → s.Ended)
    (h : (Exchange.mk s request reply after).redundant ended = true) : after = s := by
  cases hstep with
  | notOpened hopen => rw [Writer.openField_error hopen]
  | notWritten hwrite => rw [FieldWriter.write_refusal hwrite (isRefusal_of_redundant h)]
  | closed hclose => exact ((hended h).step (.closed hclose)).2 rfl
  | notClosed hclose => exact ((hended h).step (.notClosed hclose)).2 rfl
  | opened | written | recorded | finished | notFinished | dropped | given | notGiven => cases h

/-- A close that succeeds leaves a segment that is whole. -/
theorem Step.ended {s after : Session σ} {request : Request} {reply : Except Error (Reply σ)}
    (hstep : Step s request reply after)
    (h : (Exchange.mk s request reply after).ends = true) : after.Ended := by
  cases hstep with
  | closed hclose =>
    obtain ⟨-, hsound, hclosed, -⟩ := Writer.close_ok hclose
    exact ⟨_, .inl rfl, hclosed, hsound⟩
  | _ => cases h

/-- A history without its redundant exchanges is the history of what is left. -/
theorem history_trimmed_from (requests : List Request) :
    ∀ {s : Session σ} {ended : Bool}, (ended = true → s.Ended) →
      let kept := Exchange.trimmed ended (s.history requests)
      s.history (kept.map (·.request)) = kept ∧
        s.final (kept.map (·.request)) = s.final requests := by
  induction requests with
  | nil => exact fun _ => ⟨rfl, rfl⟩
  | cons request rest ih =>
    intro s ended hended
    cases hturn : s.turn request with
    | none =>
      rw [history_cons_none hturn, final_cons_none hturn]
      exact ih hended
    | some result =>
      obtain ⟨reply, after⟩ := result
      have hstep := step_of_turn hturn
      rw [history_cons hturn, final_cons hturn, Exchange.trimmed]
      split
      next hredundant =>
        obtain rfl := hstep.redundant hended hredundant
        exact ih hended
      next =>
        have hafter : (ended || (Exchange.mk s request reply after).ends) = true → after.Ended := by
          intro h
          rcases Bool.or_eq_true_iff.mp h with h | h
          · exact ((hended h).step hstep).1
          · exact hstep.ended h
        obtain ⟨hhistory, hfinal⟩ := ih hafter
        refine ⟨?_, ?_⟩
        · rw [List.map_cons, history_cons hturn, hhistory]
        · rw [List.map_cons, final_cons hturn, hfinal]

/-- **Refused calls leave no trace.** Without them, and without every close after one that
succeeded, a session goes through the same calls with the same replies, from one state to the next,
and ends with the same writer, whose sinks hold the same bytes. -/
theorem history_trimmed (s : Session σ) (requests : List Request) :
    let kept := Exchange.trimmed false (s.history requests)
    s.history (kept.map (·.request)) = kept ∧ s.final (kept.map (·.request)) = s.final requests :=
  history_trimmed_from requests (fun h => nomatch h)

end Session

end Lexicon

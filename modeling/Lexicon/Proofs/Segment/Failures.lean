import Lexicon.Proofs.Segment.Session
import Lexicon.Proofs.Stream.Frame

/-!
# Sinks that fail

A sink is made of something that takes a part of the bytes it is given, or fails (`Medium`): it may
fail at any write or flush, and do well again later. A `Watched` medium is one under observation: it
is known which bytes it has taken, and how many of its operations have failed.

> **`Session.history_honest`** — whatever the media of a segment do once its headers are written, no
> failure is forgotten, and none is reported as success.

As long as the writer has not failed, every sink holds just what was written (`Output.Whole`). A
call that fails in the middle is noted by the writer (`Writer.orFail`), and from then on every call
is refused before it does anything.
-/

namespace Lexicon

/-- What a sink is made of. -/
class Medium (μ : Type) where
  /-- Takes one byte or more off the front of some bytes, or fails. The last one taken is told. -/
  write : μ → (bs : Bytes) → Except MediumFault (Fin bs.length) × μ
  /-- Makes what was taken lasting, or fails. -/
  flush : μ → Except MediumFault Unit × μ

/-- A medium, and what it did so far. -/
structure Watched (μ : Type) where
  medium : μ
  /-- The bytes it took. -/
  received : Bytes := []
  /-- Number of its operations that failed. -/
  faults : Nat := 0

namespace Watched

variable {μ : Type} [Medium μ]

/-- Writes bytes to a medium until all are taken or it fails, with so many writes at most. -/
def send : Nat → Watched μ → Bytes → Except MediumFault Unit × Watched μ
  | 0, s, _ => (.ok (), s)
  | limit + 1, s, bs =>
    if bs.isEmpty then (.ok (), s)
    else
      match Medium.write s.medium bs with
      | (.error fault, medium) => (.error fault, { s with medium, faults := s.faults + 1 })
      | (.ok last, medium) =>
        send limit { s with medium, received := s.received ++ bs.take (last + 1) }
          (bs.drop (last + 1))

instance : Sink (Watched μ) where
  -- every write takes one byte at least, so there are no more writes than bytes
  write s bs := send bs.length s bs
  flush s :=
    match Medium.flush s.medium with
    | (.ok (), medium) => (.ok (), { s with medium })
    | (.error fault, medium) => (.error fault, { s with medium, faults := s.faults + 1 })

/-- Bytes that are sent without a failure are all taken. -/
theorem send_ok (limit : Nat) :
    ∀ {s s' : Watched μ} {bs : Bytes}, bs.length ≤ limit → send limit s bs = (.ok (), s') →
      s'.received = s.received ++ bs ∧ s'.faults = s.faults := by
  induction limit with
  | zero =>
    intro s s' bs hlength h
    obtain rfl := List.length_eq_zero_iff.mp (Nat.le_zero.mp hlength)
    cases h
    exact ⟨(List.append_nil _).symm, rfl⟩
  | succ limit ih =>
    intro s s' bs hlength h
    rw [send] at h
    split at h
    next hempty =>
      cases h
      rw [List.isEmpty_iff.mp hempty, List.append_nil]
      exact ⟨rfl, rfl⟩
    next =>
      split at h
      next => cases h
      next last medium hwrite =>
        have hdrop : (bs.drop (last + 1)).length ≤ limit := by
          rw [List.length_drop]
          omega
        obtain ⟨hreceived, hfaults⟩ := ih hdrop h
        refine ⟨?_, hfaults⟩
        rw [hreceived, List.append_assoc, List.take_append_drop]

end Watched

/-! ## Streams into watched media -/

namespace Output

variable {μ : Type}

/-- Nothing has failed, and the medium has taken just the bytes that were written. -/
structure Whole (out : Output (Watched μ)) : Prop where
  faults : out.sink.faults = 0
  digest : out.digest = ({} : Digest).update out.sink.received

/-- The medium has taken as many bytes as were written, and they are a stream that is accepted. -/
structure Accepted (out : Output (Watched μ)) : Prop where
  length : out.sink.received.length = out.position
  footer : ∀ name,
    Frame.checkFooter out.sink.received name = .ok (out.position - Frame.footerLength)

variable [Medium μ] {out out' : Output (Watched μ)}

/-- A portion that is written leaves the output whole. -/
theorem Whole.portion {bs : Bytes} (h : out.Whole) (hout : Output.portion bs out = .ok () out') :
    out'.Whole ∧ out'.sink.received = out.sink.received ++ bs := by
  unfold Output.portion at hout
  split at hout
  next hempty =>
    cases hout
    rw [List.isEmpty_iff.mp hempty, List.append_nil]
    exact ⟨h, rfl⟩
  next =>
    split at hout
    next sink hsend =>
      cases hout
      obtain ⟨hreceived, hfaults⟩ := Watched.send_ok bs.length (Nat.le_refl _) hsend
      refine ⟨⟨hfaults.trans h.faults, ?_⟩, hreceived⟩
      show out.digest.update bs = ({} : Digest).update sink.received
      rw [hreceived, h.digest, Digest.update_append]
    next => cases hout

/-- Portions that are written leave the output whole. -/
theorem Whole.portions {portions : List Bytes} :
    ∀ {out : Output (Watched μ)}, out.Whole → Output.portions portions out = .ok () out' →
      out'.Whole ∧ out'.sink.received = out.sink.received ++ portions.flatten := by
  induction portions with
  | nil =>
    intro out h hout
    cases hout
    exact ⟨h, (List.append_nil _).symm⟩
  | cons bs rest ih =>
    intro out h hout
    obtain ⟨_, mid, hfirst, hrest⟩ := exists_of_bind_ok hout
    obtain ⟨hmid, hreceived⟩ := h.portion hfirst
    obtain ⟨hout', hreceived'⟩ := ih hmid hrest
    refine ⟨hout', ?_⟩
    rw [hreceived', hreceived, List.flatten_cons, List.append_assoc]

/-- What is written without a failure is taken. -/
theorem Whole.items {items : List Item} (h : out.Whole)
    (hout : Output.items items out = .ok () out') :
    out'.Whole ∧ out'.sink.received = out.sink.received ++ Item.encodeAll items := by
  rw [← flatten_pieces]
  exact h.portions hout

/-- A flush leaves the output whole. -/
theorem Whole.flush (h : out.Whole) (hout : Output.flush out = .ok () out') :
    out'.Whole ∧ out'.sink.received = out.sink.received := by
  unfold Output.flush at hout
  split at hout
  next sink hflush =>
    cases hout
    simp only [Sink.flush] at hflush
    split at hflush <;> cases hflush
    exact ⟨⟨h.faults, h.digest⟩, rfl⟩
  next => cases hout

/-- A footer that is written without a failure makes an accepted stream of what is there. -/
theorem Whole.writeFooter (h : out.Whole) (hout : Frame.writeFooter out = .ok () out') :
    out'.Whole ∧ out'.sink.received = Frame.framed out.sink.received := by
  obtain ⟨_, mid, hmark, hrest⟩ := exists_of_bind_ok hout
  obtain ⟨hmid, hreceived⟩ := h.items hmark
  rw [bind_ok (show (get : Write (Watched μ) _) mid = .ok mid mid from rfl)] at hrest
  obtain ⟨hout', hreceived'⟩ := hmid.items hrest
  refine ⟨hout', ?_⟩
  rw [hreceived', Item.encodeAll_singleton, hmid.digest, hreceived]
  rfl

/-- A whole output that is finished is accepted. -/
theorem Whole.finished (h : out.Whole) (hout : Writer.Finished out out') :
    out'.Whole ∧ out'.Accepted := by
  obtain ⟨items, body, framed, hitems, hfooter, hflush⟩ := hout
  obtain ⟨hframed, hreceived⟩ := (h.items hitems).1.writeFooter hfooter
  obtain ⟨hout', hsame⟩ := hframed.flush hflush
  have hlength : out'.position = out'.sink.received.length := by
    rw [Output.position, hout'.digest, Digest.length_update]
    exact Nat.zero_add _
  refine ⟨hout', hlength.symm, fun name => ?_⟩
  rw [hlength, hsame, hreceived, Frame.checkFooter_framed, Frame.length_framed]
  rfl

end Output

/-! ## The writer -/

namespace Writer

variable {μ : Type}

/-- Number of operations of the media that failed. -/
def faults (w : Writer (Watched μ)) : Nat :=
  w.terms.sink.faults + w.index.sink.faults + w.directory.sink.faults

/-- All three streams are such. -/
def All {σ : Type} (P : Output σ → Prop) (w : Writer σ) : Prop :=
  P w.terms ∧ P w.index ∧ P w.directory

/-- As long as all outputs are whole there was no fault. -/
theorem All.faults_eq {w : Writer (Watched μ)} (h : w.All Output.Whole) : w.faults = 0 := by
  obtain ⟨hterms, hindex, hdirectory⟩ := h
  rw [faults, hterms.faults, hindex.faults, hdirectory.faults]

end Writer

namespace Session

variable {μ : Type}

/-- Number of operations of the media that failed. -/
def faults (s : Session (Watched μ)) : Nat := s.writer.faults

/-- A writer that has not failed has whole streams, which are accepted once it is closed; and no
field is open then. -/
structure Sound (s : Session (Watched μ)) : Prop where
  whole : s.writer.failed = false → s.writer.All Output.Whole
  accepted : s.writer.failed = false → s.writer.closed = true → s.writer.All Output.Accepted
  unclosed : ∀ f w, s = inField f w → w.failed = false → w.closed = false

end Session

/-- Requests that a writer refuses once it has failed. -/
def Request.refusable : Request → Bool
  | .record _ | .drop => false
  | _ => true

/-- A segment was ended by the call. -/
def Exchange.Ends {σ : Type} (x : Exchange σ) : Prop :=
  (x.request = .close ∨ x.request = .intoStreams) ∧ ∃ reply, x.reply = .ok reply

/-- What a row of calls tells of the media: no failure is forgotten, and none is reported as
success. -/
structure Honest {μ : Type} (h : List (Exchange (Watched μ))) : Prop where
  /-- The call during which something fails is an error. -/
  reported : ∀ x ∈ h, x.before.faults < x.after.faults → ∃ e, x.reply = .error e
  /-- Once something has failed, the writer has. -/
  noted : ∀ x ∈ h, 0 < x.after.faults → x.after.writer.failed = true
  /-- And so it stays: every later call is refused. -/
  kept : h.Pairwise fun x y => 0 < x.after.faults →
    y.after.writer.failed = true ∧ (y.request.refusable = true → y.reply = .error .failed)
  /-- A segment is ended only if nothing has failed, and then its streams are accepted. -/
  ended : ∀ x ∈ h, x.Ends → x.after.faults = 0 ∧ x.after.writer.All Output.Accepted
  /-- The sinks that are given away are those of the streams. -/
  given : ∀ x ∈ h, ∀ sinks, x.reply = .ok (.sinks sinks) →
    sinks = ⟨x.after.writer.terms.sink, x.after.writer.index.sink, x.after.writer.directory.sink⟩

namespace Session

variable {μ : Type}

/-- A session whose writer has failed is sound whatever came before. -/
theorem Sound.of_failed {s : Session (Watched μ)} (h : s.writer.failed = true) : s.Sound := by
  refine ⟨fun hsound => ?_, fun hsound => ?_, fun f w hs hsound => ?_⟩
  · rw [h] at hsound
    cases hsound
  · rw [h] at hsound
    cases hsound
  · subst hs
    rw [show w.failed = true from h] at hsound
    cases hsound

/-- A sound session with a fault has failed. -/
theorem Sound.failed {s : Session (Watched μ)} (h : s.Sound) (hfaults : 0 < s.faults) :
    s.writer.failed = true := by
  cases hsound : s.writer.failed with
  | true => rfl
  | false =>
    rw [faults, (h.whole hsound).faults_eq] at hfaults
    exact absurd hfaults (Nat.lt_irrefl 0)

section

variable {σ : Type} [Sink σ]

/-- **Once the writer has failed, it does nothing any more.** -/
theorem Step.of_failed {s after : Session σ} {request : Request} {reply : Except Error (Reply σ)}
    (hstep : Step s request reply after) (hfailed : s.writer.failed = true) :
    after.writer = s.writer ∧ (request.refusable = true → reply = .error .failed) := by
  have hopen {w : Writer σ} (hw : w.failed = true) (info : FieldInfo) :
      Writer.openField info w = .error .failed w := by
    rw [Writer.openField_eq, if_pos hw]
  have hwrite {w : Writer σ} (hw : w.failed = true) (f : FieldWriter) (term : Bytes)
      (state : TermState) : f.write term state w = .error .failed w := by
    rw [FieldWriter.write_eq, if_pos hw]
  have hfinish {w : Writer σ} (hw : w.failed = true) (f : FieldWriter) :
      f.finish w = .error .failed w := by
    rw [FieldWriter.finish_eq, if_pos hw]
  have hclose {w : Writer σ} (hw : w.failed = true) : Writer.close w = .error .failed w := by
    rw [Writer.close_eq, if_pos hw]
  cases hstep with
  | opened h | notOpened h =>
    cases (hopen hfailed _).symm.trans h
    try exact ⟨rfl, fun _ => rfl⟩
  | written h | notWritten h =>
    cases (hwrite hfailed _ _ _).symm.trans h
    try exact ⟨rfl, fun _ => rfl⟩
  | finished h | notFinished h =>
    cases (hfinish hfailed _).symm.trans h
    try exact ⟨rfl, fun _ => rfl⟩
  | closed h | notClosed h | given h | notGiven h =>
    cases (hclose hfailed).symm.trans h
    try exact ⟨rfl, fun _ => rfl⟩
  | recorded | dropped => exact ⟨rfl, nofun⟩

/-- A session that has failed refuses every call and stays failed. -/
theorem history_failed (requests : List Request) :
    ∀ {s : Session σ}, s.writer.failed = true → ∀ x ∈ s.history requests,
      x.after.writer.failed = true ∧ (x.request.refusable = true → x.reply = .error .failed) := by
  induction requests with
  | nil => exact fun _ x hx => nomatch hx
  | cons request rest ih =>
    intro s hfailed x hx
    cases hturn : s.turn request with
    | none =>
      rw [history_cons_none hturn] at hx
      exact ih hfailed x hx
    | some result =>
      obtain ⟨reply, after⟩ := result
      obtain ⟨hsame, hreply⟩ := (step_of_turn hturn).of_failed hfailed
      have hafter : after.writer.failed = true := by rw [hsame, hfailed]
      rw [history_cons hturn] at hx
      rcases List.mem_cons.mp hx with rfl | hx
      · exact ⟨hafter, hreply⟩
      · exact ih hafter x hx

end

variable [Medium μ] {s after : Session (Watched μ)} {request : Request}
  {reply : Except Error (Reply (Watched μ))}

/-- The streams of a segment that was closed are whole and accepted. -/
theorem Sound.close {w w' : Writer (Watched μ)} (h : (idle w).Sound)
    (hclose : Writer.close w = .ok () w') :
    w'.failed = false ∧ w'.closed = true ∧ w'.All Output.Whole ∧ w'.All Output.Accepted := by
  obtain ⟨hsound, hsound', hclosed', ⟨hclosed, rfl⟩ |
    ⟨terms, index, directory, hterms, hindex, hdirectory, rfl⟩⟩ := Writer.close_ok hclose
  · exact ⟨hsound', hclosed', h.whole hsound, h.accepted hsound hclosed⟩
  · obtain ⟨wterms, windex, wdirectory⟩ := h.whole hsound
    obtain ⟨hterms, hterms'⟩ := wterms.finished hterms
    obtain ⟨hindex, hindex'⟩ := windex.finished hindex
    obtain ⟨hdirectory, hdirectory'⟩ := wdirectory.finished hdirectory
    exact ⟨hsound', hclosed', ⟨hterms, hindex, hdirectory⟩, hterms', hindex', hdirectory'⟩

/-- **One call keeps the streams whole, or is noted.** -/
theorem Sound.step (h : s.Sound) (hstep : Step s request reply after) : after.Sound := by
  cases hstep with
  | opened hopen =>
    obtain ⟨hsound, hunclosed, rfl⟩ := Writer.openField_ok_cases hopen
    refine ⟨fun _ => h.whole hsound, fun _ => h.accepted hsound, ?_⟩
    rintro f w ⟨⟩ -
    exact hunclosed
  | notOpened hopen =>
    obtain rfl := Writer.openField_error hopen
    exact h
  | @written w w' f f' _ _ hwrite =>
    obtain ⟨hsound, items, terms, codec, hterms, rfl⟩ := FieldWriter.write_ok_cases hwrite
    have hunclosed := h.unclosed f w rfl hsound
    obtain ⟨wterms, windex, wdirectory⟩ := h.whole hsound
    refine ⟨fun _ => ⟨(wterms.items hterms).1, windex, wdirectory⟩, fun _ hclosed => ?_, ?_⟩
    · cases hunclosed.symm.trans hclosed
    · rintro f w ⟨⟩ -
      exact hunclosed
  | notWritten hwrite =>
    obtain rfl | ⟨hfailed, -⟩ := FieldWriter.write_error_cases hwrite
    · exact h
    · exact .of_failed hfailed
  | recorded =>
    refine ⟨h.whole, h.accepted, ?_⟩
    rintro f w ⟨⟩ hsound
    exact h.unclosed _ _ rfl hsound
  | @finished w w' f summary hfinish =>
    obtain ⟨hsound, blocks, indexItems, terms, index, codec, hterms, hindex, rfl⟩ :=
      FieldWriter.finish_ok_cases hfinish
    have hunclosed := h.unclosed f w rfl hsound
    obtain ⟨wterms, windex, wdirectory⟩ := h.whole hsound
    refine ⟨fun _ => ⟨(wterms.items hterms).1, (windex.items hindex).1, wdirectory⟩,
      fun _ hclosed => ?_, fun _ _ hs => nomatch hs⟩
    cases hunclosed.symm.trans hclosed
  | notFinished hfinish => exact .of_failed (FieldWriter.finish_error hfinish)
  | dropped => exact ⟨h.whole, h.accepted, fun _ _ hs => nomatch hs⟩
  | closed hclose | given hclose =>
    obtain ⟨-, -, hwhole, haccepted⟩ := h.close hclose
    exact ⟨fun _ => hwhole, fun _ _ => haccepted, fun _ _ hs => nomatch hs⟩
  | notClosed hclose | notGiven hclose => exact .of_failed (Writer.close_error hclose)

omit [Medium μ] in
/-- A writer that has not failed still has not after a call that succeeds. -/
theorem Step.sound {σ : Type} [Sink σ] {s after : Session σ} {request : Request} {r : Reply σ}
    (hstep : Step s request (.ok r) after) (hsound : s.writer.failed = false) :
    after.writer.failed = false := by
  cases hstep with
  | opened hopen =>
    obtain ⟨-, -, rfl⟩ := Writer.openField_ok_cases hopen
    exact hsound
  | written hwrite =>
    obtain ⟨-, -, -, -, -, rfl⟩ := FieldWriter.write_ok_cases hwrite
    exact hsound
  | finished hfinish =>
    obtain ⟨-, -, -, -, -, -, -, -, rfl⟩ := FieldWriter.finish_ok_cases hfinish
    exact hsound
  | closed hclose | given hclose => exact (Writer.close_ok hclose).2.1
  | recorded | dropped => exact hsound

/-- What one call tells of the media. -/
theorem Sound.reported (h : s.Sound) (hstep : Step s request reply after)
    (hfaults : s.faults < after.faults) : ∃ e, reply = .error e := by
  cases reply with
  | error e => exact ⟨e, rfl⟩
  | ok r =>
    -- neither a writer that has failed nor one with whole streams has met a new failure
    cases hsound : s.writer.failed with
    | true =>
      rw [faults, faults, (hstep.of_failed hsound).1] at hfaults
      exact absurd hfaults (Nat.lt_irrefl _)
    | false =>
      have hnot := hstep.sound hsound
      rw [(h.step hstep).failed (Nat.zero_lt_of_lt hfaults)] at hnot
      cases hnot

/-- A sound session that ends well has had no fault. -/
theorem Sound.ended (h : s.Sound) (hstep : Step s request reply after)
    (hends : (Exchange.mk s request reply after).Ends) :
    after.faults = 0 ∧ after.writer.All Output.Accepted := by
  obtain ⟨hrequest, r, hreply⟩ := hends
  cases hstep with
  | closed hclose | given hclose =>
    obtain ⟨-, -, hwhole, haccepted⟩ := h.close hclose
    exact ⟨hwhole.faults_eq, haccepted⟩
  | notOpened | notWritten | notFinished | notClosed | notGiven => cases hreply
  | opened | written | recorded | finished | dropped => rcases hrequest with h | h <;> cases h

omit [Medium μ] in
/-- The sinks that are given are those of the writer. -/
theorem Step.given_eq {σ : Type} [Sink σ] {s after : Session σ} {request : Request}
    {sinks : Streams σ} (hstep : Step s request (.ok (.sinks sinks)) after) :
    sinks = ⟨after.writer.terms.sink, after.writer.index.sink, after.writer.directory.sink⟩ := by
  cases hstep
  rfl

/-- A sound session is honest from there on. -/
theorem honest_of_sound (requests : List Request) :
    ∀ {s : Session (Watched μ)}, s.Sound → Honest (s.history requests) := by
  induction requests with
  | nil =>
    intro s _
    exact ⟨List.forall_mem_nil _, List.forall_mem_nil _, .nil, List.forall_mem_nil _,
      List.forall_mem_nil _⟩
  | cons request rest ih =>
    intro s h
    cases hturn : s.turn request with
    | none =>
      rw [history_cons_none hturn]
      exact ih h
    | some result =>
      obtain ⟨reply, after⟩ := result
      have hstep := step_of_turn hturn
      have hafter := h.step hstep
      obtain ⟨hreported, hnoted, hkept, hended, hgiven⟩ := ih hafter
      rw [history_cons hturn]
      refine ⟨?_, ?_, ?_, ?_, ?_⟩
      · exact List.forall_mem_cons.mpr ⟨h.reported hstep, hreported⟩
      · exact List.forall_mem_cons.mpr ⟨hafter.failed, hnoted⟩
      · exact List.pairwise_cons.mpr
          ⟨fun y hy hfaults => history_failed rest (hafter.failed hfaults) y hy, hkept⟩
      · exact List.forall_mem_cons.mpr ⟨h.ended hstep, hended⟩
      · refine List.forall_mem_cons.mpr ⟨fun sinks hsinks => ?_, hgiven⟩
        dsimp only at hsinks
        subst hsinks
        exact hstep.given_eq

/-- A segment whose headers are written is off to a good start. -/
theorem sound_of_start {segment : Segment} {sizes : BlockSizes} {media : Streams μ}
    {w : Writer (Watched μ)}
    (h : Writer.start segment sizes (media.map fun medium => { medium }) = (.ok (), w)) :
    (idle w).Sound := by
  obtain ⟨-, terms, index, directory, hterms, hindex, hdirectory, rfl⟩ := Writer.exists_of_start h
  have hnew (name : String) (medium : μ) : Output.Whole ⟨name, { medium }, {}⟩ := ⟨rfl, rfl⟩
  exact ⟨fun _ => ⟨((hnew _ _).items hterms).1, ((hnew _ _).items hindex).1,
    ((hnew _ _).items hdirectory).1⟩, nofun, fun _ _ hs => nomatch hs⟩

/-- **No failure is forgotten, and none is reported as success**: whatever the media of a segment do
once its headers are written, and whatever is asked of its writer in whatever order. -/
theorem history_honest {segment : Segment} {sizes : BlockSizes} {media : Streams μ}
    {w : Writer (Watched μ)}
    (hstart : Writer.start segment sizes (media.map fun medium => { medium }) = (.ok (), w))
    (requests : List Request) : Honest ((idle w).history requests) :=
  honest_of_sound requests (sound_of_start hstart)

end Session

/-! ## A medium that recovers -/

/-- A medium whose operations come out as told, one after the other, and well from then on. -/
structure Faltering where
  outcomes : List (Option MediumFault) := []

namespace Faltering

instance : Medium Faltering where
  write m bs :=
    match bs, m.outcomes with
    | _, some fault :: rest => (.error fault, ⟨rest⟩)
    | [], _ => (.error .full, m)
    | _ :: _, outcomes => (.ok (Fin.last _), ⟨outcomes.tail⟩)
  flush m :=
    match m.outcomes with
    | some fault :: rest => (.error fault, ⟨rest⟩)
    | outcomes => (.ok (), ⟨outcomes.tail⟩)

/-- The stream of blocks takes its header, fails once and recovers. -/
def media : Streams Faltering := ⟨⟨List.replicate 6 none ++ [some .full]⟩, {}, {}⟩

/-- A segment over these media, with its headers written. -/
def started : Except Error Unit × Writer (Watched Faltering) :=
  Writer.start default {} (media.map fun medium => { medium })

theorem started_eq : started = (.ok (), started.2) := Writer.start_of_isOk (by decide +kernel)

/-- A field whose one block meets the failure. -/
def requests : List Request :=
  [.openField ⟨"title", 0, .docs⟩, .write [97] ⟨⟨1, 1⟩, []⟩, .finish, .close, .intoStreams]

end Faltering

/-- A medium that is full for a while: the fault is reported once, and the session stays failed. -/
theorem Session.history_honest_faltering :
    Writer.start default {} (Faltering.media.map fun medium => { medium })
        = (.ok (), Faltering.started.2) ∧
      ((idle Faltering.started.2).history Faltering.requests).map (·.after.faults)
        = [0, 0, 1, 1, 1] ∧
      Honest ((idle Faltering.started.2).history Faltering.requests) :=
  ⟨Faltering.started_eq, by decide +kernel, history_honest Faltering.started_eq Faltering.requests⟩

end Lexicon

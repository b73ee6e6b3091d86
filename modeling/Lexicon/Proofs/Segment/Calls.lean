import Lexicon.Proofs.Reading
import Lexicon.Segment.Writer

/-!
# The calls on a segment writer

Each call tests for what it refuses, in a fixed order, and then does something that can fail. These
lemmas say for every call, over any sinks, what it comes to; nothing later looks into the calls.
-/

namespace Lexicon

variable {σ : Type}

namespace Writer

theorem get_ok (w : Writer σ) : (get : Call σ _) w = .ok w w := rfl

/-- A writer that has not failed is let through. -/
theorem ensureSound_ok {w : Writer σ} (h : w.failed = false) : ensureSound w = .ok () w := by
  rw [ensureSound, bind_ok (get_ok w), h]
  rfl

/-- A writer that has failed is stopped. -/
theorem ensureSound_error {w : Writer σ} (h : w.failed = true) :
    ensureSound w = .error .failed w := by
  rw [ensureSound, bind_ok (get_ok w), h]
  rfl

/-- What succeeds is not noted. -/
theorem orFail_ok {α : Type} {c : Call σ α} {w w' : Writer σ} {a : α} (h : c w = .ok a w') :
    orFail c w = .ok a w' := by
  rw [orFail, h]

/-- What fails is noted. -/
theorem orFail_error {α : Type} {c : Call σ α} {w w' : Writer σ} {e : Error}
    (h : c w = .error e w') : orFail c w = .error e { w' with failed := true } := by
  rw [orFail, h]

/-- What succeeded under watch has succeeded. -/
theorem of_orFail_eq_ok {α : Type} {c : Call σ α} {w w' : Writer σ} {a : α}
    (h : orFail c w = .ok a w') : c w = .ok a w' := by
  unfold orFail at h
  split at h <;> cases h
  assumption

/-- A call that may leave the streams not whole is noted. -/
theorem failed_of_orFail {α : Type} {c : Call σ α} {w w' : Writer σ} {e : Error}
    (h : orFail c w = .error e w') : w'.failed = true ∧ ∃ w₁, c w = .error e w₁ := by
  unfold orFail at h
  split at h <;> cases h
  exact ⟨rfl, _, ‹_›⟩

/-- What was written to the stream of terms changes this stream only. -/
theorem exists_of_onTerms {α : Type} {c : Write σ α} {a : α} {w w' : Writer σ}
    (h : onTerms c w = .ok a w') : ∃ out, c w.terms = .ok a out ∧ w' = { w with terms := out } := by
  unfold onTerms at h
  split at h <;> cases h
  exact ⟨_, ‹_›, rfl⟩

theorem exists_of_onIndex {α : Type} {c : Write σ α} {a : α} {w w' : Writer σ}
    (h : onIndex c w = .ok a w') : ∃ out, c w.index = .ok a out ∧ w' = { w with index := out } := by
  unfold onIndex at h
  split at h <;> cases h
  exact ⟨_, ‹_›, rfl⟩

theorem exists_of_onDirectory {α : Type} {c : Write σ α} {a : α} {w w' : Writer σ}
    (h : onDirectory c w = .ok a w') :
    ∃ out, c w.directory = .ok a out ∧ w' = { w with directory := out } := by
  unfold onDirectory at h
  split at h <;> cases h
  exact ⟨_, ‹_›, rfl⟩

/-- The number of the last field that was opened, if the given one is not above it. -/
def passed (w : Writer σ) (info : FieldInfo) : Option UInt32 :=
  (w.infos.getLast?.map (·.number)).filter (info.number ≤ ·)

/-- A field is opened unless the writer has failed, is closed or has passed its number. -/
theorem openField_eq (info : FieldInfo) (w : Writer σ) :
    openField info w =
      if w.failed then .error .failed w
      else if w.closed then .error .closed w
      else match w.passed info with
        | some previous => .error (.fieldOutOfOrder info.number.toNat previous.toNat) w
        | none => .ok { info } { w with infos := w.infos ++ [info], codec := {} } := by
  rw [openField]
  split
  next hfailed => rw [bind_error (ensureSound_error hfailed)]
  next hsound =>
    rw [bind_ok (ensureSound_ok (Bool.eq_false_iff.mpr hsound)), bind_ok (get_ok w)]
    split
    next => rfl
    next =>
      show (match w.passed info with | some _ => _ | none => _ : Call σ FieldWriter) w = _
      cases w.passed info <;> rfl

/-- A field that is opened is noted, and the codec starts anew. -/
theorem openField_ok_cases {info : FieldInfo} {w w' : Writer σ} {f : FieldWriter}
    (h : openField info w = .ok f w') : w.failed = false ∧ w.closed = false ∧
      w' = { w with infos := w.infos ++ [info], codec := {} } := by
  rw [openField_eq] at h
  split at h
  next => cases h
  next hsound =>
    split at h
    next => cases h
    next hopen =>
      split at h <;> cases h
      exact ⟨Bool.eq_false_iff.mpr hsound, Bool.eq_false_iff.mpr hopen, rfl⟩

/-- A field that is opened has a number above that of the field before it. -/
theorem of_openField_ok {info : FieldInfo} {w w' : Writer σ} {f : FieldWriter}
    (h : openField info w = .ok f w') :
    f = { info } ∧ ∀ i, w.infos.getLast? = some i → i.number < info.number := by
  rw [openField_eq] at h
  split at h
  next => cases h
  next =>
    split at h
    next => cases h
    next =>
      split at h <;> cases h
      next hnone =>
        refine ⟨rfl, fun i hlast => ?_⟩
        rw [passed, hlast, Option.map_some, Option.filter_eq_none_iff] at hnone
        exact UInt32.not_le.mp fun hle => hnone i.number rfl (decide_eq_true hle)

/-- A field that is not opened leaves the writer as it was. -/
theorem openField_error {info : FieldInfo} {w w' : Writer σ} {e : Error}
    (h : openField info w = .error e w') : w' = w := by
  rw [openField_eq] at h
  split at h
  · cases h
    rfl
  split at h
  · cases h
    rfl
  split at h <;> cases h
  rfl

section

variable [Sink σ]

/-- What an emission comes to is written, with its codec, to the stream of terms. -/
theorem emit_eq {α : Type} (e : Emit α) (w : Writer σ) :
    emit e w =
      match e ⟨w.terms.position, w.codec, []⟩ with
      | .error e _ => .error e w
      | .ok a out =>
        match Output.items out.items w.terms with
        | .error e terms => .error e { w with terms }
        | .ok () terms => .ok a { w with terms, codec := out.codec } := by
  rw [emit, bind_ok (get_ok w)]
  split
  next h => simp only [h]; rfl
  next h =>
    simp only [h]
    split
    next hitems => rw [bind_error (show onTerms _ w = _ by rw [onTerms, hitems])]
    next hitems => rw [bind_ok (show onTerms _ w = _ by rw [onTerms, hitems])]; rfl

/-- Something is written to a stream, and the stream is ended. -/
def Finished (out out' : Output σ) : Prop :=
  ∃ items body framed, Output.items items out = .ok () body ∧
    Frame.writeFooter body = .ok () framed ∧ Output.flush framed = .ok () out'

/-- The trailers are whole: every stream has got what was left to write, and is ended. -/
theorem exists_of_writeTrailers {w w' : Writer σ} (h : writeTrailers w = .ok () w') :
    ∃ terms index directory, Finished w.terms terms ∧ Finished w.index index ∧
      Finished w.directory directory ∧ w' = { w with terms, index, directory } := by
  rw [writeTrailers, bind_ok (get_ok w)] at h
  cases htable : startsTable w.summaries with
  | error e =>
    simp only [htable] at h
    cases h
  | ok table =>
    simp only [htable] at h
    obtain ⟨_, _, h₁, h⟩ := exists_of_bind_ok h
    obtain ⟨i₁, hi₁, rfl⟩ := exists_of_onIndex h₁
    obtain ⟨_, _, h₂, h⟩ := exists_of_bind_ok h
    obtain ⟨i₂, hi₂, rfl⟩ := exists_of_onIndex h₂
    obtain ⟨_, _, h₃, h⟩ := exists_of_bind_ok h
    obtain ⟨t₁, ht₁, rfl⟩ := exists_of_onTerms h₃
    rw [bind_ok (get_ok _)] at h
    obtain ⟨_, _, h₄, h⟩ := exists_of_bind_ok h
    obtain ⟨d₁, hd₁, rfl⟩ := exists_of_onDirectory h₄
    obtain ⟨_, _, h₅, h⟩ := exists_of_bind_ok h
    obtain ⟨d₂, hd₂, rfl⟩ := exists_of_onDirectory h₅
    obtain ⟨_, _, h₆, h⟩ := exists_of_bind_ok h
    obtain ⟨t₂, ht₂, rfl⟩ := exists_of_onTerms h₆
    obtain ⟨_, _, h₇, h⟩ := exists_of_bind_ok h
    obtain ⟨i₃, hi₃, rfl⟩ := exists_of_onIndex h₇
    obtain ⟨d₃, hd₃, rfl⟩ := exists_of_onDirectory h
    -- the stream of blocks gets its footer only
    exact ⟨t₂, i₃, d₃, ⟨[], _, t₁, rfl, ht₁, ht₂⟩, ⟨_, i₁, i₂, hi₁, hi₂, hi₃⟩,
      ⟨_, d₁, d₂, hd₁, hd₂, hd₃⟩, rfl⟩

/-- A segment is started once its streams have their headers. -/
theorem exists_of_start {segment : Segment} {sizes : BlockSizes} {sinks : Streams σ} {w : Writer σ}
    (h : start segment sizes sinks = (.ok (), w)) : sizes.check = .ok () ∧
      ∃ terms index directory,
        Output.items (Streams.header segment Streams.codecs.terms)
          ⟨(Streams.names segment).terms, sinks.terms, {}⟩ = .ok () terms ∧
        Output.items (Streams.header segment Streams.codecs.index)
          ⟨(Streams.names segment).index, sinks.index, {}⟩ = .ok () index ∧
        Output.items (Streams.header segment Streams.codecs.directory)
          ⟨(Streams.names segment).directory, sinks.directory, {}⟩ = .ok () directory ∧
        w = { segment, sizes, terms, index, directory } := by
  unfold start at h
  cases hcheck : sizes.check with
  | error e =>
    simp only [hcheck] at h
    cases h
  | ok =>
    simp only [hcheck] at h
    split at h <;> cases h
    next hheaders =>
      obtain ⟨_, _, h₁, hheaders⟩ := exists_of_bind_ok hheaders
      obtain ⟨terms, hterms, rfl⟩ := exists_of_onTerms h₁
      obtain ⟨_, _, h₂, h₃⟩ := exists_of_bind_ok hheaders
      obtain ⟨index, hindex, rfl⟩ := exists_of_onIndex h₂
      obtain ⟨directory, hdirectory, rfl⟩ := exists_of_onDirectory h₃
      exact ⟨rfl, terms, index, directory, hterms, hindex, hdirectory, rfl⟩

/-- A start that succeeded is one without an error. -/
theorem start_of_isOk {segment : Segment} {sizes : BlockSizes} {sinks : Streams σ}
    (h : (start segment sizes sinks).1.isOk = true) :
    start segment sizes sinks = (.ok (), (start segment sizes sinks).2) := by
  generalize start segment sizes sinks = started at h ⊢
  obtain ⟨_ | _, w⟩ := started
  · cases h
  · rfl

/-- What is emitted goes to the stream of blocks and nowhere else. -/
theorem exists_of_emit {α : Type} {e : Emit α} {a : α} {w w' : Writer σ} (h : emit e w = .ok a w') :
    ∃ items terms codec, Output.items items w.terms = .ok () terms ∧
      w' = { w with terms, codec } := by
  rw [emit_eq] at h
  split at h
  next => cases h
  next =>
    split at h <;> cases h
    exact ⟨_, _, _, ‹_›, rfl⟩

/-- Closing writes the trailers once, and reports a failure for good. -/
theorem close_eq (w : Writer σ) :
    close w =
      if w.failed then .error .failed w
      else if w.closed then .ok () w
      else orFail writeTrailers { w with closed := true } := by
  rw [close]
  split
  next hfailed => rw [bind_error (ensureSound_error hfailed)]
  next hsound =>
    rw [bind_ok (ensureSound_ok (Bool.eq_false_iff.mpr hsound)), bind_ok (get_ok w)]
    split <;> rfl

/-- A writer that closes has either been closed before or finishes all three streams. -/
theorem close_ok {w w' : Writer σ} (h : close w = .ok () w') :
    w.failed = false ∧ w'.failed = false ∧ w'.closed = true ∧
      (w.closed = true ∧ w' = w ∨
        ∃ terms index directory, Finished w.terms terms ∧ Finished w.index index ∧
          Finished w.directory directory ∧
          w' = { w with closed := true, terms, index, directory }) := by
  rw [close_eq] at h
  split at h
  next => cases h
  next hfailed =>
    have hsound : w.failed = false := Bool.eq_false_iff.mpr hfailed
    split at h
    next hclosed =>
      cases h
      exact ⟨hsound, hsound, hclosed, .inl ⟨hclosed, rfl⟩⟩
    next =>
      obtain ⟨terms, index, directory, hterms, hindex, hdirectory, rfl⟩ :=
        exists_of_writeTrailers (of_orFail_eq_ok h)
      exact ⟨hsound, hsound, rfl, .inr ⟨terms, index, directory, hterms, hindex, hdirectory, rfl⟩⟩

/-- A close that fails is noted. -/
theorem close_error {w w' : Writer σ} {e : Error} (h : close w = .error e w') :
    w'.failed = true := by
  rw [close_eq] at h
  split at h
  next hfailed =>
    cases h
    exact hfailed
  next =>
    split at h
    next => cases h
    next => exact (failed_of_orFail h).1

/-- The streams are given by a writer that closes. -/
theorem intoStreams_eq (w : Writer σ) :
    intoStreams w =
      match close w with
      | .error e w => .error e w
      | .ok () w => .ok ⟨w.terms.sink, w.index.sink, w.directory.sink⟩ w := by
  rw [intoStreams]
  split
  next h => rw [bind_error h]
  next h => rw [bind_ok h]; rfl

end

end Writer

namespace FieldWriter

variable [Sink σ]

/-- The field writer once its frontier has taken a term. -/
def taken (f : FieldWriter) (frontier : Frontier) (term : Bytes) (state : TermState) :
    FieldWriter :=
  { f with
    frontier, terms := f.terms + 1, sumDocFreq := f.sumDocFreq + state.docFreq.toUInt64
    sumTotalFreq := f.sumTotalFreq + state.totalFreq, minTerm := some (f.minTerm.getD term) }

/-- A term is refused for the writer, its order or its state, and is taken otherwise. -/
theorem write_eq (f : FieldWriter) (term : Bytes) (state : TermState) (w : Writer σ) :
    f.write term state w =
      if w.failed then .error .failed w
      else if 0 < f.terms ∧ ¬ f.frontier.last < term then
        .error (.termOutOfOrder f.info.name term f.frontier.last) w
      else
        let hasFreqs := f.info.options.hasFreqs
        let state := state.normalized hasFreqs
        match state.check hasFreqs with
        | .error e => .error e w
        | .ok () =>
          match Writer.orFail (Writer.emit (f.frontier.push w.sizes hasFreqs term state)) w with
          | .error e w => .error e w
          | .ok frontier w => .ok (f.taken frontier term state) w := by
  by_cases hfailed : w.failed = true
  · rw [write, bind_error (Writer.ensureSound_error hfailed), if_pos hfailed]
  · rw [write, bind_ok (Writer.ensureSound_ok (Bool.eq_false_iff.mpr hfailed)), if_neg hfailed]
    split
    next => rfl
    next =>
      simp only []
      split
      next h => simp only [h]; rfl
      next h =>
        simp only [h]
        rw [bind_ok (Writer.get_ok w)]
        split
        next hemit => rw [bind_error hemit]
        next hemit => rw [bind_ok hemit]; rfl

/-- A term that is taken has all its blocks in the stream of terms. -/
theorem write_ok_cases {f f' : FieldWriter} {term : Bytes} {state : TermState} {w w' : Writer σ}
    (h : f.write term state w = .ok f' w') : w.failed = false ∧
      ∃ items terms codec, Output.items items w.terms = .ok () terms ∧
        w' = { w with terms, codec } := by
  rw [write_eq] at h
  split at h
  next => cases h
  next hsound =>
    refine ⟨Bool.eq_false_iff.mpr hsound, ?_⟩
    split at h
    next => cases h
    next =>
      dsimp only at h
      split at h
      next => cases h
      next =>
        split at h
        next => cases h
        next hemit =>
          cases h
          exact Writer.exists_of_emit (Writer.of_orFail_eq_ok hemit)

/-- A write that fails did nothing, or is noted. -/
theorem write_error_cases {f : FieldWriter} {term : Bytes} {state : TermState} {w w' : Writer σ}
    {e : Error} (h : f.write term state w = .error e w') :
    w' = w ∨ w'.failed = true ∧ ∃ w₁,
      Writer.emit (f.frontier.push w.sizes f.info.options.hasFreqs term
        (state.normalized f.info.options.hasFreqs)) w = .error e w₁ := by
  rw [write_eq] at h
  split at h
  · cases h
    exact .inl rfl
  split at h
  · cases h
    exact .inl rfl
  dsimp only at h
  split at h
  · cases h
    exact .inl rfl
  split at h
  next hemit =>
    cases h
    exact .inr (Writer.failed_of_orFail hemit)
  next => cases h

/-- What completes a field goes to the streams of blocks and of indexes. -/
theorem exists_of_complete {f : FieldWriter} {summary : FieldSummary} {w w' : Writer σ}
    (h : f.complete w = .ok summary w') :
    ∃ blocks indexItems terms index codec, Output.items blocks w.terms = .ok () terms ∧
      Output.items indexItems w.index = .ok () index ∧
      w' = { w with terms, index, codec } := by
  rw [complete, bind_ok (Writer.get_ok w)] at h
  split at h
  next =>
    cases h
    exact ⟨[], [], w.terms, w.index, w.codec, rfl, rfl, rfl⟩
  next =>
    obtain ⟨root, _, hemit, h⟩ := exists_of_bind_ok h
    obtain ⟨blocks, terms, codec, hterms, rfl⟩ := Writer.exists_of_emit hemit
    cases hempty : root.index.emptyOutput with
    | none =>
      simp only [hempty] at h
      cases h
    | some rootCode =>
      simp only [hempty] at h
      obtain ⟨_, _, honIndex, h⟩ := exists_of_bind_ok h
      obtain ⟨index, hindex, rfl⟩ := Writer.exists_of_onIndex honIndex
      cases h
      exact ⟨blocks, _, terms, index, codec, hterms, hindex, rfl⟩

/-- Finishing a field adds its documents and its summary. -/
theorem finish_eq (f : FieldWriter) (w : Writer σ) :
    f.finish w =
      if w.failed then .error .failed w
      else match Writer.orFail f.complete w with
        | .error e w => .error e w
        | .ok summary w =>
          .ok summary
            { w with docs := w.docs ++ f.docs, summaries := w.summaries ++ [summary] } := by
  rw [finish]
  split
  next hfailed => rw [bind_error (Writer.ensureSound_error hfailed)]
  next hsound =>
    rw [bind_ok (Writer.ensureSound_ok (Bool.eq_false_iff.mpr hsound))]
    split
    next h => rw [bind_error h]
    next h => rw [bind_ok h]; rfl

/-- A field that finishes has its blocks and its index in their streams. -/
theorem finish_ok_cases {f : FieldWriter} {summary : FieldSummary} {w w' : Writer σ}
    (h : f.finish w = .ok summary w') : w.failed = false ∧
      ∃ blocks indexItems terms index codec, Output.items blocks w.terms = .ok () terms ∧
        Output.items indexItems w.index = .ok () index ∧
        w' = { w with terms, index, codec, docs := w.docs ++ f.docs
                      summaries := w.summaries ++ [summary] } := by
  rw [finish_eq] at h
  split at h
  next => cases h
  next hsound =>
    refine ⟨Bool.eq_false_iff.mpr hsound, ?_⟩
    split at h
    next => cases h
    next hcomplete =>
      cases h
      obtain ⟨blocks, indexItems, terms, index, codec, hterms, hindex, rfl⟩ :=
        exists_of_complete (Writer.of_orFail_eq_ok hcomplete)
      exact ⟨blocks, indexItems, terms, index, codec, hterms, hindex, rfl⟩

/-- A field that cannot be finished is noted. -/
theorem finish_error {f : FieldWriter} {w w' : Writer σ} {e : Error}
    (h : f.finish w = .error e w') : w'.failed = true := by
  rw [finish_eq] at h
  split at h
  next hfailed =>
    cases h
    exact hfailed
  next =>
    split at h
    next hcomplete =>
      cases h
      exact (Writer.failed_of_orFail hcomplete).1
    next => cases h

end FieldWriter

end Lexicon

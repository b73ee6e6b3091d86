import Lexicon.Proofs.Segment.Ends

/-!
# Sinks of any kind and sinks in memory

A segment may be written to files or to anything else that takes bytes. If what a sink took can be
read from it (`Sink.Readable`), then all that succeeds over such sinks succeeds over sinks in memory
that hold the same bytes, and leaves the same bytes there.

> **`Writer.copies_runAll`**, **`Writer.copies_close`** — so what is written and ended anywhere is
> written and ended in memory.
-/

namespace Lexicon

/-! ## Computations on images of states -/

section

variable {ε σ τ α β : Type} {image : σ → τ}

/-- What succeeds from a state succeeds from its image, with the same value. -/
def Copies (image : σ → τ) (c : EStateM ε σ α) (c' : EStateM ε τ α) : Prop :=
  ∀ ⦃s a s'⦄, c s = .ok a s' → c' (image s) = .ok a (image s')

/-- A result that is at hand is the same on an image. -/
theorem copies_pure (a : α) :
    Copies image (pure a : EStateM ε σ α) (pure a : EStateM ε τ α) := by
  rintro s _ _ ⟨⟩
  rfl

/-- Of what fails nothing is said. -/
theorem copies_throw (e : ε) (c' : EStateM ε τ α) :
    Copies image (throw e : EStateM ε σ α) c' := nofun

/-- One step after the other is copied if both are. -/
theorem Copies.bind {c : EStateM ε σ α} {c' : EStateM ε τ α} {f : α → EStateM ε σ β}
    {f' : α → EStateM ε τ β} (hc : Copies image c c') (hf : ∀ a, Copies image (f a) (f' a)) :
    Copies image (c >>= f) (c' >>= f') := by
  intro s b s' h
  obtain ⟨a, mid, hfirst, hrest⟩ := exists_of_bind_ok h
  rw [bind_ok (hc hfirst)]
  exact hf a hrest

/-- The state is not the same value as its image, so what is done with it has to be. -/
theorem copies_get_bind {f : σ → EStateM ε σ α} {f' : τ → EStateM ε τ α}
    (h : ∀ s, Copies image (f s) (f' (image s))) :
    Copies image (get >>= f) (get >>= f') :=
  fun s _ _ hs => h s hs

/-- A change of the state is copied if it goes with the image. -/
theorem copies_modify {f : σ → σ} {f' : τ → τ} (h : ∀ s, f' (image s) = image (f s)) :
    Copies image (modify f : EStateM ε σ Unit) (modify f' : EStateM ε τ Unit) := by
  rintro s _ _ ⟨⟩
  exact congrArg (EStateM.Result.ok ()) (h s)

end

/-! ## Outputs -/

/-- What sinks took can be read from them. -/
structure Sink.Readable {σ : Type} [Sink σ] (content : σ → Bytes) : Prop where
  write : ∀ {sink sink' : σ} {bs : Bytes},
    Sink.write sink bs = (.ok (), sink') → content sink' = content sink ++ bs
  flush : ∀ {sink sink' : σ}, Sink.flush sink = (.ok (), sink') → content sink' = content sink

/-- What memory holds can be read off it. -/
theorem Memory.readable : Sink.Readable Memory.bytes where
  write {sink sink' bs} h := by
    change (if sink.accepts bs.length then _ else _ : Except MediumFault Unit × Memory) = _ at h
    split at h <;> cases h
    exact Array.toList_appendList ..
  flush h := congrArg bytes (Prod.ext_iff.mp h).2.symm

variable {σ α : Type} {content : σ → Bytes}

namespace Output

/-- The output with a sink in memory that holds what its own took. -/
def inMemory (content : σ → Bytes) (out : Output σ) : Output Memory :=
  ⟨out.name, { data := (content out.sink).toArray }, out.digest⟩

variable [Sink σ]

/-- Bytes are written as they are in memory. -/
theorem copies_portion (h : Sink.Readable content) (bs : Bytes) :
    Copies (inMemory content) (portion bs : Write σ Unit) (portion bs) := by
  intro out a out' hout
  rw [portion] at hout ⊢
  split at hout
  next hempty =>
    cases hout
    rw [if_pos hempty]
  next hempty =>
    split at hout <;> cases hout
    next sink hwrite =>
      rw [if_neg hempty]
      have hsink : Sink.write (inMemory content out).sink bs
          = (.ok (), { data := (content sink).toArray : Memory }) := by
        rw [h.write hwrite, ← List.toArray_appendList]
        rfl
      rw [hsink]
      rfl

theorem copies_items (h : Sink.Readable content) (items' : List Item) :
    Copies (inMemory content) (items items' : Write σ Unit) (items items') := by
  unfold items
  induction items'.flatMap Item.pieces with
  | nil => exact copies_pure ()
  | cons bs rest ih => exact (copies_portion h bs).bind fun _ => ih

theorem copies_writeFooter (h : Sink.Readable content) :
    Copies (inMemory content) (Frame.writeFooter : Write σ Unit) Frame.writeFooter :=
  (copies_items h _).bind fun _ => copies_get_bind fun _ => copies_items h _

theorem copies_flush (h : Sink.Readable content) :
    Copies (inMemory content) (flush : Write σ Unit) flush := by
  intro out a out' hout
  rw [flush] at hout ⊢
  split at hout <;> cases hout
  next sink hflush =>
    have hsink : Sink.flush (inMemory content out).sink
        = (.ok (), { data := (content sink).toArray : Memory }) := by
      rw [h.flush hflush]
      rfl
    rw [hsink]
    rfl

end Output

/-! ## Calls -/

namespace Writer

/-- The writer with sinks in memory that hold what its own took. -/
def inMemory (content : σ → Bytes) (w : Writer σ) : Writer Memory :=
  { w with terms := w.terms.inMemory content, index := w.index.inMemory content
           directory := w.directory.inMemory content }

/-- What is written to the stream of terms is copied with the writer. -/
theorem copies_onTerms {c : Write σ α} {c' : Write Memory α}
    (h : Copies (Output.inMemory content) c c') :
    Copies (inMemory content) (onTerms c) (onTerms c') := by
  intro w a w' hw
  obtain ⟨out, hout, rfl⟩ := exists_of_onTerms hw
  show onTerms c' (w.inMemory content) = _
  rw [onTerms, show c' (w.inMemory content).terms = _ from h hout]
  rfl

theorem copies_onIndex {c : Write σ α} {c' : Write Memory α}
    (h : Copies (Output.inMemory content) c c') :
    Copies (inMemory content) (onIndex c) (onIndex c') := by
  intro w a w' hw
  obtain ⟨out, hout, rfl⟩ := exists_of_onIndex hw
  rw [onIndex, show c' (w.inMemory content).index = _ from h hout]
  rfl

theorem copies_onDirectory {c : Write σ α} {c' : Write Memory α}
    (h : Copies (Output.inMemory content) c c') :
    Copies (inMemory content) (onDirectory c) (onDirectory c') := by
  intro w a w' hw
  obtain ⟨out, hout, rfl⟩ := exists_of_onDirectory hw
  rw [onDirectory, show c' (w.inMemory content).directory = _ from h hout]
  rfl

/-- A failure is noted as it is in memory. -/
theorem copies_orFail {c : Call σ α} {c' : Call Memory α} (h : Copies (inMemory content) c c') :
    Copies (inMemory content) (orFail c) (orFail c') :=
  fun _ _ _ hw => orFail_ok (h (of_orFail_eq_ok hw))

theorem copies_ensureSound :
    Copies (inMemory content) (ensureSound : Call σ Unit) ensureSound := by
  refine copies_get_bind fun w => ?_
  show Copies _ (if w.failed then throw Error.failed else pure ())
    (if w.failed then throw Error.failed else pure ())
  split
  · exact copies_throw _ _
  · exact copies_pure _

theorem copies_openField (info : FieldInfo) :
    Copies (inMemory content) (openField info : Call σ FieldWriter) (openField info) := by
  intro w f w' hw
  have hpassed : (w.inMemory content).passed info = w.passed info := rfl
  rw [openField_eq] at hw ⊢
  rw [hpassed]
  split at hw
  next => cases hw
  next hsound =>
    split at hw
    next => cases hw
    next hopen =>
      split at hw <;> cases hw
      rw [if_neg (by exact hsound), if_neg (by exact hopen)]
      rfl

variable [Sink σ]

/-- An emission is written as it is in memory. -/
theorem copies_emit (h : Sink.Readable content) (e : Emit α) :
    Copies (inMemory content) (emit e : Call σ α) (emit e) := by
  intro w a w' hw
  -- blocks depend on the stream before them by its length only
  have hstart : e ⟨(w.inMemory content).terms.position, (w.inMemory content).codec, []⟩
      = e ⟨w.terms.position, w.codec, []⟩ := rfl
  rw [emit_eq] at hw ⊢
  rw [hstart]
  split at hw
  next => cases hw
  next out hout =>
    split at hw <;> cases hw
    next hitems =>
      have hstored := Output.copies_items h _ hitems
      simp only [inMemory, hstored]

theorem copies_writeTrailers (h : Sink.Readable content) :
    Copies (inMemory content) (writeTrailers : Call σ Unit) writeTrailers := by
  refine copies_get_bind fun w => ?_
  have hsame : (w.inMemory content).summaries = w.summaries := rfl
  simp only [hsame]
  split
  · exact copies_throw _ _
  · exact (copies_onIndex (Output.copies_items h _)).bind fun _ =>
      (copies_onIndex (Output.copies_writeFooter h)).bind fun _ =>
      (copies_onTerms (Output.copies_writeFooter h)).bind fun _ => copies_get_bind fun _ =>
      (copies_onDirectory (Output.copies_items h _)).bind fun _ =>
      (copies_onDirectory (Output.copies_writeFooter h)).bind fun _ =>
      (copies_onTerms (Output.copies_flush h)).bind fun _ =>
      (copies_onIndex (Output.copies_flush h)).bind fun _ =>
      copies_onDirectory (Output.copies_flush h)

/-- **A segment that is ended anywhere** is ended in memory. -/
theorem copies_close (h : Sink.Readable content) :
    Copies (inMemory content) (close : Call σ Unit) close := by
  refine copies_ensureSound.bind fun _ => copies_get_bind fun w => ?_
  show Copies _ (if w.closed then _ else _) (if w.closed then _ else _)
  split
  · exact copies_pure _
  · exact Copies.bind (copies_modify fun _ => by rfl) fun _ =>
      copies_orFail (copies_writeTrailers h)

end Writer

/-! ## Fields -/

namespace FieldWriter

variable [Sink σ]

/-- A term is written as it is in memory. -/
theorem copies_write (h : Sink.Readable content) (f : FieldWriter) (term : Bytes)
    (state : TermState) :
    Copies (Writer.inMemory content) (f.write term state : Writer.Call σ FieldWriter)
      (f.write term state) := by
  refine Writer.copies_ensureSound.bind fun _ => ?_
  dsimp only
  split
  · exact copies_throw _ _
  · split
    · exact copies_throw _ _
    · exact copies_get_bind fun _ =>
        (Writer.copies_orFail (Writer.copies_emit h _)).bind fun _ => copies_pure _

theorem copies_complete (h : Sink.Readable content) (f : FieldWriter) :
    Copies (Writer.inMemory content) (f.complete : Writer.Call σ FieldSummary) f.complete := by
  refine copies_get_bind fun w => ?_
  split
  · exact copies_pure _
  · refine (Writer.copies_emit h _).bind fun root => ?_
    split
    · exact copies_throw _ _
    · exact (Writer.copies_onIndex (Output.copies_items h _)).bind fun _ => copies_pure _

theorem copies_finish (h : Sink.Readable content) (f : FieldWriter) :
    Copies (Writer.inMemory content) (f.finish : Writer.Call σ FieldSummary) f.finish :=
  Writer.copies_ensureSound.bind fun _ =>
    (Writer.copies_orFail (copies_complete h f)).bind fun _ =>
      Copies.bind (copies_modify fun _ => by rfl) fun _ => copies_pure _

/-- The steps of a field go as they do in memory. -/
theorem copies_run (h : Sink.Readable content) (steps : List FieldStep) : ∀ f : FieldWriter,
    Copies (Writer.inMemory content) (f.run steps : Writer.Call σ FieldWriter) (f.run steps) := by
  induction steps with
  | nil => exact fun f => copies_pure f
  | cons step steps ih =>
    intro f
    cases step with
    | write term state => exact (copies_write h f term state).bind ih
    | record docs => exact ih (f.record docs)

end FieldWriter

variable [Sink σ]

/-- A script of a field runs as it does in memory. -/
theorem FieldScript.copies_run (h : Sink.Readable content) (s : FieldScript) :
    Copies (Writer.inMemory content) (s.run : Writer.Call σ Unit) s.run := by
  refine (Writer.copies_openField s.info).bind fun f =>
    (FieldWriter.copies_run h s.steps f).bind fun f => ?_
  split
  · exact (FieldWriter.copies_finish h f).bind fun _ => copies_pure _
  · exact copies_pure _

namespace Writer

/-- **Fields that are written anywhere** are written in memory. -/
theorem copies_runAll (h : Sink.Readable content) (scripts : List FieldScript) :
    Copies (inMemory content) (runAll scripts : Call σ Unit) (runAll scripts) := by
  induction scripts with
  | nil => exact copies_pure ()
  | cons s scripts ih => exact (FieldScript.copies_run h s).bind fun _ => ih

/-- A segment that is started over empty sinks is started over empty memory. -/
theorem start_inMemory (h : Sink.Readable content) {segment : Segment} {sizes : BlockSizes}
    {sinks : Streams σ} {w : Writer σ} (hempty : sinks.map content = ⟨[], [], []⟩)
    (hstart : start segment sizes sinks = (.ok (), w)) :
    start segment sizes ⟨{}, {}, {}⟩ = (.ok (), w.inMemory content) := by
  obtain ⟨hsizes, terms, index, directory, hterms, hindex, hdirectory, rfl⟩ :=
    exists_of_start hstart
  obtain ⟨hterms₀, hindex₀, hdirectory₀⟩ := Streams.mk.inj hempty
  have himage (name : String) (sink : σ) (hsink : content sink = []) :
      Output.inMemory content ⟨name, sink, {}⟩ = ⟨name, {}, {}⟩ := by
    rw [Output.inMemory, hsink]
  have hterms := Output.copies_items h _ hterms
  have hindex := Output.copies_items h _ hindex
  have hdirectory := Output.copies_items h _ hdirectory
  rw [himage _ _ hterms₀] at hterms
  rw [himage _ _ hindex₀] at hindex
  rw [himage _ _ hdirectory₀] at hdirectory
  exact start_of_items hsizes hterms hindex hdirectory

end Writer

end Lexicon

import Lexicon.Proofs.Segment.Fields

/-!
# What a writer has counted

A field writer counts the terms that it takes, and a segment writer keeps the summaries and the
documents of the fields that were finished. These facts hold over any sinks and need no room: they
are read off the calls that succeeded, whatever was written.

> **`Writer.Tally.runAll`** — after any number of fields, finished or dropped, the summaries are
> exact for the finished ones, in order, and so are the documents.

`FieldScript.Summarizes` says what exact means. The counts are words, so it takes sums that fit them
(`FieldScript.Countable`).
-/

namespace Lexicon

/-! ## Computations that keep a relation -/

section

variable {ε σ α β : Type} {r : σ → σ → Prop}

/-- The states before and after a computation are related, whether it fails or not. -/
def Keeps (r : σ → σ → Prop) (c : EStateM ε σ α) : Prop :=
  ∀ s, (∀ a s', c s = .ok a s' → r s s') ∧ ∀ e s', c s = .error e s' → r s s'

theorem Keeps.ok {c : EStateM ε σ α} (h : Keeps r c) {s s' : σ} {a : α} (hc : c s = .ok a s') :
    r s s' := (h s).1 a s' hc

theorem Keeps.error {c : EStateM ε σ α} (h : Keeps r c) {s s' : σ} {e : ε}
    (hc : c s = .error e s') : r s s' := (h s).2 e s' hc

/-- A result that is at hand keeps the relation. -/
theorem keeps_pure [Std.Refl r] (a : α) : Keeps r (pure a : EStateM ε σ α) := by
  refine fun s => ⟨?_, nofun⟩
  rintro _ _ ⟨⟩
  exact Std.Refl.refl s

/-- A failure that is at hand keeps the relation. -/
theorem keeps_throw [Std.Refl r] (e : ε) : Keeps r (throw e : EStateM ε σ α) := by
  refine fun s => ⟨nofun, ?_⟩
  rintro _ _ ⟨⟩
  exact Std.Refl.refl s

/-- Looking at the state keeps the relation. -/
theorem keeps_get [Std.Refl r] : Keeps r (get : EStateM ε σ σ) := by
  refine fun s => ⟨?_, nofun⟩
  rintro _ _ ⟨⟩
  exact Std.Refl.refl s

/-- A change of the state keeps the relation that it follows. -/
theorem keeps_modify {f : σ → σ} (h : ∀ s, r s (f s)) :
    Keeps r (modify f : EStateM ε σ Unit) := by
  refine fun s => ⟨?_, nofun⟩
  rintro _ _ ⟨⟩
  exact h s

/-- One step after the other keeps the relation if both do. -/
theorem Keeps.bind [Trans r r r] {c : EStateM ε σ α} {f : α → EStateM ε σ β} (hc : Keeps r c)
    (hf : ∀ a, Keeps r (f a)) : Keeps r (c >>= f) := by
  intro s
  cases hs : c s with
  | ok a mid =>
    rw [bind_ok hs]
    exact ⟨fun b s' h => Trans.trans (hc.ok hs) ((hf a).ok h),
      fun e s' h => Trans.trans (hc.ok hs) ((hf a).error h)⟩
  | error e mid =>
    rw [bind_error hs]
    refine ⟨nofun, ?_⟩
    rintro _ _ ⟨⟩
    exact hc.error hs

end

namespace Output

variable {σ : Type}

/-- What was written stays written. -/
def Longer (out out' : Output σ) : Prop := out.position ≤ out'.position

instance : Std.Refl (Longer : Output σ → Output σ → Prop) := ⟨fun _ => Nat.le_refl _⟩

instance : Trans (Longer : Output σ → Output σ → Prop) Longer Longer := ⟨Nat.le_trans⟩

variable [Sink σ]

/-- Writing bytes takes nothing back, also where it fails. -/
theorem keeps_portion (bs : Bytes) : Keeps Longer (portion bs : Write σ Unit) := by
  refine fun out => ⟨fun _ out' h => ?_, fun e out' h => ?_⟩
  · rw [portion] at h
    split at h
    next =>
      cases h
      exact Nat.le_refl _
    next =>
      split at h <;> cases h
      show out.digest.length ≤ (out.digest.update bs).length
      rw [Digest.length_update]
      exact Nat.le_add_right ..
  · rw [portion] at h
    split at h
    next => cases h
    next =>
      split at h <;> cases h
      exact Nat.le_refl out.digest.length

theorem keeps_items (items' : List Item) : Keeps Longer (items items' : Write σ Unit) := by
  unfold items
  induction items'.flatMap Item.pieces with
  | nil => exact keeps_pure ()
  | cons bs rest ih => exact (keeps_portion bs).bind fun _ => ih

theorem keeps_writeFooter : Keeps Longer (Frame.writeFooter : Write σ Unit) := by
  unfold Frame.writeFooter
  exact (keeps_items _).bind fun _ => keeps_get.bind fun _ => keeps_items _

theorem keeps_flush : Keeps Longer (flush : Write σ Unit) := by
  refine fun out => ⟨fun _ out' h => ?_, fun e out' h => ?_⟩ <;>
    rw [flush] at h <;> split at h <;> cases h <;> exact Nat.le_refl out.digest.length

end Output

namespace Writer

variable {σ α : Type}

/-- No field was opened or finished, and the stream of indexes has not become shorter. -/
structure Grew (w w' : Writer σ) : Prop where
  infos : w'.infos = w.infos
  summaries : w'.summaries = w.summaries
  docs : w'.docs = w.docs
  index : w.index.Longer w'.index

instance : Std.Refl (Grew : Writer σ → Writer σ → Prop) := ⟨fun _ => ⟨rfl, rfl, rfl, Nat.le_refl _⟩⟩

instance : Trans (Grew : Writer σ → Writer σ → Prop) Grew Grew :=
  ⟨fun h h' => ⟨h'.infos.trans h.infos, h'.summaries.trans h.summaries, h'.docs.trans h.docs,
    Nat.le_trans h.index h'.index⟩⟩

/-- What is written to the stream of terms leaves the other fields of the writer. -/
theorem keeps_onTerms (c : Write σ α) : Keeps Grew (onTerms c) := by
  refine fun w => ⟨fun a w' h => ?_, fun e w' h => ?_⟩ <;>
    rw [onTerms] at h <;> split at h <;> cases h <;> exact ⟨rfl, rfl, rfl, Nat.le_refl _⟩

theorem keeps_onDirectory (c : Write σ α) : Keeps Grew (onDirectory c) := by
  refine fun w => ⟨fun a w' h => ?_, fun e w' h => ?_⟩ <;>
    rw [onDirectory] at h <;> split at h <;> cases h <;> exact ⟨rfl, rfl, rfl, Nat.le_refl _⟩

/-- What is written to the index leaves the other fields of the writer. -/
theorem keeps_onIndex {c : Write σ α} (hc : Keeps Output.Longer c) : Keeps Grew (onIndex c) := by
  refine fun w => ⟨fun a w' h => ?_, fun e w' h => ?_⟩
  · rw [onIndex] at h
    split at h <;> cases h
    exact ⟨rfl, rfl, rfl, hc.ok ‹_›⟩
  · rw [onIndex] at h
    split at h <;> cases h
    exact ⟨rfl, rfl, rfl, hc.error ‹_›⟩

/-- That a failure is noted changes nothing else. -/
theorem keeps_orFail {c : Call σ α} (hc : Keeps Grew c) : Keeps Grew (orFail c) := by
  refine fun w => ⟨fun a w' h => ?_, fun e w' h => ?_⟩
  · exact hc.ok (of_orFail_eq_ok h)
  · unfold orFail at h
    split at h <;> cases h
    obtain ⟨hinfos, hsummaries, hdocs, hindex⟩ := hc.error ‹_›
    exact ⟨hinfos, hsummaries, hdocs, hindex⟩

theorem keeps_ensureSound : Keeps Grew (ensureSound : Call σ Unit) := by
  refine keeps_get.bind fun w => ?_
  split
  · exact keeps_throw _
  · exact keeps_pure _

variable [Sink σ]

/-- An emission leaves the summaries and the documents as they are. -/
theorem keeps_emit (e : Emit α) : Keeps Grew (emit e : Call σ α) := by
  refine keeps_get.bind fun w => ?_
  split
  · exact keeps_throw _
  · exact (keeps_onTerms _).bind fun _ =>
      (keeps_modify fun _ => ⟨rfl, rfl, rfl, Nat.le_refl _⟩).bind fun _ => keeps_pure _

theorem keeps_writeTrailers : Keeps Grew (writeTrailers : Call σ Unit) := by
  refine keeps_get.bind fun w => ?_
  split
  · exact keeps_throw _
  · exact (keeps_onIndex (Output.keeps_items _)).bind fun _ =>
      (keeps_onIndex Output.keeps_writeFooter).bind fun _ =>
      (keeps_onTerms _).bind fun _ => keeps_get.bind fun _ =>
      (keeps_onDirectory _).bind fun _ => (keeps_onDirectory _).bind fun _ =>
      (keeps_onTerms _).bind fun _ => (keeps_onIndex Output.keeps_flush).bind fun _ =>
      keeps_onDirectory _

theorem keeps_close : Keeps Grew (close : Call σ Unit) := by
  refine keeps_ensureSound.bind fun _ => keeps_get.bind fun w => ?_
  split
  · exact keeps_pure _
  · exact (keeps_modify fun _ => ⟨rfl, rfl, rfl, Nat.le_refl _⟩).bind fun _ =>
      keeps_orFail keeps_writeTrailers

end Writer

namespace FieldWriter

variable {σ : Type} [Sink σ] {w w' : Writer σ}

/-- Writing a term leaves the summaries and the documents as they are. -/
theorem keeps_write (f : FieldWriter) (term : Bytes) (state : TermState) :
    Keeps Writer.Grew (f.write term state : Writer.Call σ FieldWriter) := by
  refine Writer.keeps_ensureSound.bind fun _ => ?_
  dsimp only
  split
  · exact keeps_throw _
  · split
    · exact keeps_throw _
    · exact keeps_get.bind fun w => (Writer.keeps_orFail (Writer.keeps_emit _)).bind fun _ =>
        keeps_pure _

theorem keeps_complete (f : FieldWriter) :
    Keeps Writer.Grew (f.complete : Writer.Call σ FieldSummary) := by
  refine keeps_get.bind fun w => ?_
  dsimp only
  split
  · exact keeps_pure _
  · refine (Writer.keeps_emit _).bind fun root => ?_
    split
    · exact keeps_throw _
    · exact (Writer.keeps_onIndex (Output.keeps_items _)).bind fun _ => keeps_pure _

/-- A field that is not finished leaves what was finished before. -/
theorem grew_of_finish_error {f : FieldWriter} {e : Error} (h : f.finish w = .error e w') :
    w.Grew w' := by
  rw [finish_eq] at h
  split at h
  next =>
    cases h
    exact Std.Refl.refl _
  next =>
    split at h
    next hcomplete =>
      cases h
      exact (Writer.keeps_orFail f.keeps_complete).error hcomplete
    next => cases h

end FieldWriter

/-! ## Calls that succeed -/

/-- A frontier that took a term has it as its last one. -/
theorem Frontier.push_last {f g : Frontier} {sizes : BlockSizes} {hasFreqs : Bool} {term : Bytes}
    {state : TermState} {out out' : Emission}
    (h : f.push sizes hasFreqs term state out = .ok g out') : g.last = term := by
  obtain ⟨f₁, _, hadvance, h⟩ := exists_of_bind_ok h
  obtain ⟨f₂, _, -, hturn⟩ := exists_of_bind_ok hadvance
  cases hturn
  cases h
  rfl

/-- An emission that succeeds comes from where the stream of terms is. -/
theorem Writer.emission_of_emit {σ α : Type} [Sink σ] {e : Emit α} {a : α} {w w' : Writer σ}
    (h : emit e w = .ok a w') : ∃ out, e ⟨w.terms.position, w.codec, []⟩ = .ok a out := by
  rw [emit_eq] at h
  split at h
  next => cases h
  next =>
    split at h <;> cases h
    exact ⟨_, ‹_›⟩

namespace FieldWriter

variable {σ : Type} [Sink σ] {w w' : Writer σ} {f f' : FieldWriter}

/-- A term is taken only in order, and with a state that is accepted. -/
theorem of_write_ok {term : Bytes} {state : TermState} (h : f.write term state w = .ok f' w') :
    (0 < f.terms → f.frontier.last < term) ∧
      (state.normalized f.info.options.hasFreqs).check f.info.options.hasFreqs = .ok () ∧
      ∃ frontier : Frontier, frontier.last = term ∧
        f' = f.taken frontier term (state.normalized f.info.options.hasFreqs) := by
  rw [write_eq] at h
  split at h
  next => cases h
  next =>
    split at h
    next => cases h
    next horder =>
      dsimp only at h
      split at h
      next => cases h
      next hcheck =>
        split at h
        next => cases h
        next hemit =>
          cases h
          obtain ⟨_, hpush⟩ := Writer.emission_of_emit (Writer.of_orFail_eq_ok hemit)
          exact ⟨fun hpos => not_not.mp fun hlt => horder ⟨hpos, hlt⟩, hcheck, _,
            Frontier.push_last hpush, rfl⟩

/-- The summary of a field is that of its counts. -/
theorem of_complete_ok {summary : FieldSummary} (h : f.complete w = .ok summary w') :
    (f.terms = 0 ∧ summary = .empty f.info.number f.info.options.hasFreqs
      (UInt64.ofNat w.index.position)) ∨
    f.terms ≠ 0 ∧ ∃ rootCode, summary = f.closed rootCode w.index.position := by
  rw [complete, bind_ok (Writer.get_ok w)] at h
  split at h
  next hzero =>
    cases h
    exact .inl ⟨hzero, rfl⟩
  next hterms =>
    obtain ⟨root, _, hemit, h⟩ := exists_of_bind_ok h
    obtain ⟨_, terms, codec, -, rfl⟩ := Writer.exists_of_emit hemit
    cases hempty : root.index.emptyOutput with
    | none =>
      simp only [hempty] at h
      cases h
    | some rootCode =>
      simp only [hempty] at h
      obtain ⟨_, _, -, h⟩ := exists_of_bind_ok h
      cases h
      exact .inr ⟨hterms, rootCode, rfl⟩

/-- A field that is finished was completed, and its documents and its summary were added. -/
theorem of_finish_ok {summary : FieldSummary} (h : f.finish w = .ok summary w') :
    ∃ w₁, f.complete w = .ok summary w₁ ∧ w' = { w₁ with
      docs := w₁.docs ++ f.docs, summaries := w₁.summaries ++ [summary] } := by
  rw [finish_eq] at h
  split at h
  next => cases h
  next =>
    split at h
    next => cases h
    next hcomplete =>
      cases h
      exact ⟨_, Writer.of_orFail_eq_ok hcomplete, rfl⟩

/-- **All steps are counted.** -/
theorem run_tallied (steps : List FieldStep) : ∀ {f f' : FieldWriter} {w w' : Writer σ}
    {terms : Terms}, f.run steps w = .ok f' w' → f.Tallied terms →
      f'.info = f.info ∧ f'.docs = f.docs ++ FieldStep.docs steps ∧
        f'.Tallied (terms ++ (FieldStep.terms steps).kept f.info.options.hasFreqs) ∧
        w.Grew w' := by
  induction steps with
  | nil =>
    intro f f' w w' terms hrun htallied
    cases hrun
    refine ⟨rfl, (List.append_nil _).symm, ?_, Std.Refl.refl _⟩
    show f.Tallied (terms ++ [])
    rwa [List.append_nil]
  | cons step steps ih =>
    intro f f' w w' terms hrun htallied
    cases step with
    | write term state =>
      obtain ⟨f₁, w₁, hwrite, hrest⟩ := exists_of_bind_ok hrun
      obtain ⟨-, -, frontier, hlast, rfl⟩ := of_write_ok hwrite
      obtain ⟨hinfo, hdocs, htallied', hgrew⟩ := ih hrest (htallied.taken _ hlast)
      refine ⟨hinfo, hdocs, ?_, Trans.trans ((f.keeps_write term state).ok hwrite) hgrew⟩
      rw [List.append_assoc] at htallied'
      exact htallied'
    | record docs =>
      obtain ⟨hinfo, hdocs, htallied', hgrew⟩ := ih hrun (htallied.record docs)
      refine ⟨hinfo, ?_, htallied', hgrew⟩
      rw [hdocs]
      exact List.append_assoc ..

end FieldWriter

/-! ## Exact summaries -/

namespace FieldScript

/-- The sums over a field fit the words that they are counted in, and it has no more documents than
its terms. -/
structure Countable (s : FieldScript) : Prop where
  terms : s.terms.length < 2 ^ 64
  docFreqs : s.terms.docFreqs < 2 ^ 64
  totalFreqs : s.hasFreqs = true → s.terms.totalFreqs < 2 ^ 64
  docs : DocList.distinct (FieldStep.docs s.steps) < 2 ^ 32
  covered : DocList.distinct (FieldStep.docs s.steps) ≤ s.terms.docFreqs

/-- The summary says of the field what was written to it. -/
structure Summarizes (s : FieldScript) (x : FieldSummary) : Prop where
  number : x.number = s.info.number
  terms : x.terms.toNat = s.terms.length
  sumDocFreq : x.sumDocFreq.toNat = s.terms.docFreqs
  sumTotalFreq : x.sumTotalFreq.map (·.toNat)
    = if s.hasFreqs then some s.terms.totalFreqs else none
  minTerm : x.minTerm = (s.terms.head?.map (·.1)).getD []
  maxTerm : x.maxTerm = (s.terms.getLast?.map (·.1)).getD []
  docCount : x.docCount.toNat = DocList.distinct (FieldStep.docs s.steps)

variable {s : FieldScript} {f : FieldWriter}

theorem length_kept (s : FieldScript) : s.kept.length = s.terms.length := List.length_map ..

/-- With frequencies the states are kept as they are. -/
theorem kept_of_hasFreqs (h : s.hasFreqs = true) : s.kept = s.terms := by
  rw [kept, h]
  exact List.map_id s.terms

/-- A field without terms has no documents either. -/
theorem summarizes_empty (hcountable : s.Countable) (hterms : s.terms = []) (indexStart : UInt64) :
    s.Summarizes (.empty s.info.number s.hasFreqs indexStart) := by
  have hdocs := hcountable.covered
  rw [hterms] at hdocs
  refine ⟨rfl, ?_, ?_, ?_, ?_, ?_, ?_⟩
  · rw [hterms]
    rfl
  · rw [hterms]
    rfl
  · rw [hterms, FieldSummary.empty]
    cases s.hasFreqs <;> rfl
  · rw [hterms]
    rfl
  · rw [hterms]
    rfl
  · exact (Nat.le_zero.mp hdocs).symm

/-- The counts of a field writer say of the field what was written to it. -/
theorem summarizes_closed (hcountable : s.Countable) (htallied : f.Tallied s.kept)
    (hinfo : f.info = s.info) (hdocs : f.docs = FieldStep.docs s.steps) (rootCode : Bytes)
    (indexStart : Nat) : s.Summarizes (f.closed rootCode indexStart) := by
  obtain ⟨hlast, hcount, hdocFreq, htotalFreq, hmin⟩ := htallied
  have hsum : s.kept.docFreqs = s.terms.docFreqs := s.terms.docFreqs_kept s.hasFreqs
  refine ⟨congrArg FieldInfo.number hinfo, ?_, ?_, ?_, ?_, ?_, ?_⟩
  · show f.terms.toNat = _
    rw [hcount, s.length_kept]
    exact UInt64.toNat_ofNat_of_lt' hcountable.terms
  · show f.sumDocFreq.toNat = _
    rw [hdocFreq, hsum]
    exact UInt64.toNat_ofNat_of_lt' hcountable.docFreqs
  · show (if f.info.options.hasFreqs then some f.sumTotalFreq else none : Option UInt64).map _ = _
    have hfreqs : f.info.options.hasFreqs = s.hasFreqs := by rw [hinfo]; rfl
    rw [hfreqs]
    cases hkeeps : s.hasFreqs with
    | false => rfl
    | true =>
      rw [htotalFreq, kept_of_hasFreqs hkeeps]
      exact congrArg some (UInt64.toNat_ofNat_of_lt' (hcountable.totalFreqs hkeeps))
  · show f.minTerm.getD [] = _
    rw [hmin, kept, Terms.kept, List.head?_map, Option.map_map]
    rfl
  · show f.frontier.last = _
    rw [hlast, Terms.last, kept, Terms.kept, List.getLast?_map, Option.map_map]
    rfl
  · show (UInt32.ofNat f.docs.distinct).toNat = _
    rw [hdocs]
    exact UInt32.toNat_ofNat_of_lt' hcountable.docs

end FieldScript

namespace Writer

variable {σ : Type}

/-- These are the fields that were finished, and the writer has counted them. -/
structure Tally (w : Writer σ) (finished : List FieldScript) : Prop where
  exact : List.Forall₂ (fun s x => s.Countable → s.Summarizes x) finished w.summaries
  docs : w.docs = finished.flatMap fun s => FieldStep.docs s.steps
  /-- Each index starts behind those before it. -/
  starts : ∃ starts : List Nat, w.summaries.map (·.indexStart) = starts.map UInt64.ofNat ∧
    starts.Pairwise (· ≤ ·) ∧ ∀ n ∈ starts, n ≤ w.index.position

variable {w w' : Writer σ} {finished : List FieldScript}

/-- A writer that wrote on has the same tally. -/
theorem Tally.grew (h : w.Tally finished) (hgrew : w.Grew w') : w'.Tally finished := by
  obtain ⟨starts, hstarts, hsorted, hle⟩ := h.starts
  refine ⟨?_, ?_, starts, ?_, hsorted, fun n hn => Nat.le_trans (hle n hn) hgrew.index⟩
  · rw [hgrew.summaries]
    exact h.exact
  · rw [hgrew.docs]
    exact h.docs
  · rw [hgrew.summaries]
    exact hstarts

variable [Sink σ]

/-- A field is finished after all others. -/
theorem Tally.finish (h : w.Tally finished) {s : FieldScript} {f : FieldWriter}
    {summary : FieldSummary} (htallied : f.Tallied s.kept) (hinfo : f.info = s.info)
    (hdocs : f.docs = FieldStep.docs s.steps) (hfinish : f.finish w = .ok summary w') :
    w'.Tally (finished ++ [s]) := by
  obtain ⟨w₁, hcomplete, rfl⟩ := FieldWriter.of_finish_ok hfinish
  have hgrew := f.keeps_complete.ok hcomplete
  obtain ⟨hexact, hdocs', starts, hstarts, hsorted, hle⟩ := h
  rw [← hgrew.summaries] at hexact hstarts
  -- either way the summary has the place where the stream of indexes ended before
  have hsummary : summary.indexStart = UInt64.ofNat w.index.position ∧
      (s.Countable → s.Summarizes summary) := by
    rcases FieldWriter.of_complete_ok hcomplete with ⟨hzero, rfl⟩ | ⟨-, rootCode, rfl⟩
    · refine ⟨rfl, fun hcountable => ?_⟩
      have hterms : s.terms = [] := by
        rw [htallied.count, ← UInt64.toNat_inj, s.length_kept,
          UInt64.toNat_ofNat_of_lt' hcountable.terms] at hzero
        exact List.length_eq_zero_iff.mp hzero
      rw [hinfo]
      exact FieldScript.summarizes_empty hcountable hterms _
    · exact ⟨rfl, fun hcountable =>
        FieldScript.summarizes_closed hcountable htallied hinfo hdocs rootCode _⟩
  refine ⟨?_, ?_, starts ++ [w.index.position], ?_, ?_, ?_⟩
  · exact List.rel_append hexact (.cons hsummary.2 .nil)
  · show w₁.docs ++ f.docs = _
    rw [hgrew.docs, hdocs', hdocs, List.flatMap_append, List.flatMap_singleton]
  · show (w₁.summaries ++ [summary]).map _ = _
    rw [List.map_append, List.map_append, hstarts, List.map_singleton, hsummary.1]
    rfl
  · exact hsorted.concat hle
  · intro n hn
    rcases List.mem_append.mp hn with hn | hn
    · exact Nat.le_trans (hle n hn) hgrew.index
    · rw [List.mem_singleton.mp hn]
      exact hgrew.index

omit [Sink σ] in
/-- A field that was opened is not counted yet. -/
theorem Tally.open_field (h : w.Tally finished) {info : FieldInfo} {f : FieldWriter}
    (hopen : openField info w = .ok f w') : w'.Tally finished := by
  obtain ⟨-, -, rfl⟩ := openField_ok_cases hopen
  exact ⟨h.exact, h.docs, h.starts⟩

/-- A field is counted if it is finished. -/
theorem Tally.run (h : w.Tally finished) {s : FieldScript} (hrun : s.run w = .ok () w') :
    w'.Tally (finished ++ [s].filter (·.finished)) := by
  obtain ⟨f₀, w₁, hopen, hrun⟩ := exists_of_bind_ok hrun
  obtain rfl := (of_openField_ok hopen).1
  obtain ⟨f, w₂, hsteps, hrun⟩ := exists_of_bind_ok hrun
  obtain ⟨hinfo, hdocs, htallied, hgrew⟩ :=
    FieldWriter.run_tallied s.steps hsteps (FieldWriter.tallied_new s.info)
  have htally : w₂.Tally finished := (h.open_field hopen).grew hgrew
  cases hfinished : s.finished with
  | true =>
    rw [hfinished] at hrun
    obtain ⟨summary, w₃, hfinish, hdone⟩ := exists_of_bind_ok hrun
    cases hdone
    rw [List.filter_cons_of_pos hfinished]
    exact htally.finish htallied hinfo hdocs hfinish
  | false =>
    rw [hfinished] at hrun
    cases hrun
    rw [List.filter_cons_of_neg (by simp [hfinished]), List.filter_nil, List.append_nil]
    exact htally

/-- **The fields that are finished are counted**, in order. -/
theorem Tally.runAll (scripts : List FieldScript) : ∀ {w w' : Writer σ} {finished},
    w.Tally finished → Writer.runAll scripts w = .ok () w' →
      w'.Tally (finished ++ scripts.filter (·.finished)) := by
  induction scripts with
  | nil =>
    intro w w' finished h hrun
    cases hrun
    rwa [List.filter_nil, List.append_nil]
  | cons s scripts ih =>
    intro w w' finished h hrun
    obtain ⟨_, w₁, hfirst, hrest⟩ := exists_of_bind_ok hrun
    have hall := ih (h.run hfirst) hrest
    rw [List.append_assoc, ← List.filter_append] at hall
    exact hall

end Writer

end Lexicon

import Lexicon.Proofs.Block.Frontier
import Lexicon.Proofs.Segment.Calls
import Lexicon.Proofs.Stream.Frame

/-!
# Writing a field

A call on a field writer only ever adds whole runs to the stream of blocks (`Writer.Wrote`), and the
field writer keeps to `FieldWriter.Inv`: its frontier stands for the terms taken so far, and its
counts are theirs.

> **`write_spec`** — one term is taken;
> **`run_spec`** — and so are all terms of a script, with documents noted in between.
-/

namespace Lexicon

/-! ## Writers over memory -/

namespace Writer

/-- The writer can be used, and these bytes are in its streams. -/
structure Holds (w : Writer Memory) (terms index directory : Bytes) : Prop where
  terms : w.terms.Holds terms
  index : w.index.Holds index
  directory : w.directory.Holds directory
  sound : w.failed = false
  unclosed : w.closed = false

/-- All that happened from one state to the other is that these runs went into the stream of blocks,
as these items. -/
structure Wrote (sizes : BlockSizes) (hasFreqs : Bool) (w w' : Writer Memory) (items : List Item)
    (new : List Run) : Prop where
  same : w' = { w with terms := w'.terms, codec := w'.codec }
  terms : ∀ bs, w.terms.Holds bs → w'.terms.Holds (bs ++ Item.encodeAll items)
  steps : Steps sizes hasFreqs ⟨w.terms.position, w.codec, []⟩
    ⟨w'.terms.position, w'.codec, items⟩ items new

variable {sizes : BlockSizes} {hasFreqs : Bool} {w w' w'' : Writer Memory}
  {items items' : List Item} {new new' : List Run} {terms index directory : Bytes}

theorem Wrote.refl (w : Writer Memory) : Wrote sizes hasFreqs w w [] [] := by
  refine ⟨rfl, fun bs h => ?_, .refl _⟩
  rwa [Item.encodeAll_nil, List.append_nil]

/-- What is written in two goes is written one after the other. -/
theorem Wrote.trans (h : Wrote sizes hasFreqs w w' items new)
    (h' : Wrote sizes hasFreqs w' w'' items' new') :
    Wrote sizes hasFreqs w w'' (items ++ items') (new ++ new') := by
  refine ⟨?_, fun bs hbs => ?_, ?_⟩
  · rw [h'.same, h.same]
  · rw [Item.encodeAll_append, ← List.append_assoc]
    exact h'.terms _ (h.terms bs hbs)
  · have hnext := h'.steps.after items
    rw [Emission.after, Emission.after, List.append_nil] at hnext
    exact h.steps.trans hnext

/-- The streams of a writer hold what was written behind what they held. -/
theorem Wrote.holds (h : Wrote sizes hasFreqs w w' items new)
    (hw : w.Holds terms index directory) :
    w'.Holds (terms ++ Item.encodeAll items) index directory := by
  have hterms := h.terms terms hw.terms
  have hsame := h.same
  refine ⟨hterms, ?_, ?_, ?_, ?_⟩
  · rw [hsame]
    exact hw.index
  · rw [hsame]
    exact hw.directory
  · rw [hsame]
    exact hw.sound
  · rw [hsame]
    exact hw.unclosed

/-- The runs that were written are emitted one after the other, from the end of the stream on. -/
theorem Wrote.emits (h : Wrote sizes hasFreqs w w' items new)
    (hw : w.Holds terms index directory) :
    Emits sizes hasFreqs ⟨terms.length, w.codec, []⟩ new
      ⟨terms.length + (Item.encodeAll items).length, w'.codec, items⟩ := by
  have hemits := h.steps.emits
  rwa [(h.holds hw).terms.position, hw.terms.position, List.length_append] at hemits

/-- The blocks that were written start in what was added to the stream. -/
theorem Wrote.placed (h : Wrote sizes hasFreqs w w' items new)
    (hw : w.Holds terms index directory) :
    Placed new terms.length (terms ++ Item.encodeAll items).length := by
  have hplaced := h.steps.placed
  rwa [(h.holds hw).terms.position, hw.terms.position] at hplaced

/-- Writing does not change the sizes of blocks. -/
theorem Wrote.sizes_eq (h : Wrote sizes hasFreqs w w' items new) : w'.sizes = w.sizes := by
  rw [h.same]

/-- **What leads somewhere in an emission does so in the stream.** -/
theorem emit_spec {α : Type} {e : Emit α} {room : Prop} {wanted : α → List Item → List Run → Prop}
    (hw : w.Holds terms index directory)
    (h : Leads sizes hasFreqs room e ⟨w.terms.position, w.codec, []⟩ wanted) :
    (∃ a w' items new, emit e w = .ok a w' ∧ Wrote sizes hasFreqs w w' items new ∧
      wanted a items new) ∨ (¬ room ∧ ∃ error, emit e w = .error error w) := by
  rcases h with ⟨a, out, items, new, hout, hsteps, hwanted⟩ |
    ⟨hroom, error, out, items, new, hout, -⟩
  · -- the emission starts where the stream ends, with no items of its own
    have hitems : out.items = items := hsteps.written
    obtain ⟨terms', hterms', hholds⟩ := Output.items_spec hw.terms items
    have hemit : emit e w = .ok a { w with terms := terms', codec := out.codec } := by
      rw [emit, bind_ok (show (get : Call Memory _) w = .ok w w from rfl), hout]
      have hwrite : onTerms (Output.items items) w = .ok () { w with terms := terms' } := by
        rw [onTerms, hterms']
      simp only [hitems]
      rw [bind_ok hwrite]
      rfl
    have hposition : out.position = terms'.position := by
      rw [hsteps.position, hholds.position, List.length_append, hw.terms.position]
    refine .inl ⟨a, _, items, new, hemit, ⟨rfl, fun bs hbs => ?_, ?_⟩, hwanted⟩
    · have hsame : bs = terms := by
        rw [← hbs.bytes, hw.terms.bytes]
      rw [hsame]
      exact hholds
    · obtain ⟨position, codec, items₀⟩ := out
      obtain rfl : items₀ = items := hitems
      obtain rfl : position = terms'.position := hposition
      exact hsteps
  · refine .inr ⟨hroom, error, ?_⟩
    rw [emit, bind_ok (show (get : Call Memory _) w = .ok w w from rfl), hout]
    rfl

end Writer

/-! ## The open field -/

namespace Terms

/-- How many documents the terms have, each counted for itself. -/
def docFreqs (terms : Terms) : Nat := (terms.map fun t => t.2.docFreq.toNat).sum

/-- How often the terms occur. -/
def totalFreqs (terms : Terms) : Nat := (terms.map fun t => t.2.totalFreq.toNat).sum

/-- The last key, or the empty string if there are no terms. -/
def last (terms : Terms) : Bytes := (terms.getLast?.map (·.1)).getD []

theorem last_concat (terms : Terms) (t : Bytes × TermState) : last (terms ++ [t]) = t.1 := by
  rw [last, List.getLast?_concat]
  rfl

theorem docFreqs_append (a b : Terms) : docFreqs (a ++ b) = a.docFreqs + b.docFreqs := by
  simp [docFreqs]

theorem totalFreqs_append (a b : Terms) : totalFreqs (a ++ b) = a.totalFreqs + b.totalFreqs := by
  simp [totalFreqs]

end Terms

namespace FieldWriter

/-- The field writer has counted these terms. -/
structure Tallied (f : FieldWriter) (terms : Terms) : Prop where
  last : f.frontier.last = terms.last
  count : f.terms = UInt64.ofNat terms.length
  sumDocFreq : f.sumDocFreq = UInt64.ofNat terms.docFreqs
  sumTotalFreq : f.sumTotalFreq = UInt64.ofNat terms.totalFreqs
  minTerm : f.minTerm = terms.head?.map (·.1)

theorem tallied_new (info : FieldInfo) : Tallied { info } [] := ⟨rfl, rfl, rfl, rfl, rfl⟩

/-- Noting documents does not change the tally of terms. -/
theorem Tallied.record {f : FieldWriter} {terms : Terms} (h : f.Tallied terms) (docs : DocList) :
    (f.record docs).Tallied terms :=
  ⟨h.last, h.count, h.sumDocFreq, h.sumTotalFreq, h.minTerm⟩

/-- A term that is taken is tallied. -/
theorem Tallied.taken {f : FieldWriter} {terms : Terms} (h : f.Tallied terms) {frontier : Frontier}
    {term : Bytes} (state : TermState) (hlast : frontier.last = term) :
    (f.taken frontier term state).Tallied (terms ++ [(term, state)]) := by
  refine ⟨?_, ?_, ?_, ?_, ?_⟩
  · rw [Terms.last_concat]
    exact hlast
  · show f.terms + 1 = _
    rw [h.count, List.length_append, List.length_singleton, UInt64.ofNat_add]
    rfl
  · show f.sumDocFreq + state.docFreq.toUInt64 = _
    have hone : state.docFreq.toUInt64 = UInt64.ofNat state.docFreq.toNat := by
      rw [← UInt64.toNat_inj, UInt32.toNat_toUInt64, UInt64.toNat_ofNat_of_lt']
      exact Nat.lt_trans state.docFreq.toNat_lt (by decide)
    rw [h.sumDocFreq, hone, ← UInt64.ofNat_add, Terms.docFreqs_append]
    rfl
  · show f.sumTotalFreq + state.totalFreq = _
    have hone : state.totalFreq = UInt64.ofNat state.totalFreq.toNat := UInt64.ofNat_toNat.symm
    rw [h.sumTotalFreq, hone, ← UInt64.ofNat_add, Terms.totalFreqs_append]
    simp [Terms.totalFreqs]
  · show some (f.minTerm.getD term) = _
    rw [h.minTerm]
    cases terms <;> rfl

/-- The field writer after these terms, with the runs that were emitted for them. -/
structure Inv (sizes : BlockSizes) (f : FieldWriter) (stream : Bytes) (terms : Terms)
    (trace : List Run) : Prop where
  frontier : f.frontier.Inv sizes f.info.options.hasFreqs f.frontier.last.length stream terms trace
  last : f.frontier.last = terms.last
  count : f.terms = UInt64.ofNat terms.length
  sumDocFreq : f.sumDocFreq = UInt64.ofNat terms.docFreqs
  sumTotalFreq : f.sumTotalFreq = UInt64.ofNat terms.totalFreqs
  minTerm : f.minTerm = terms.head?.map (·.1)
  placed : Placed trace 0 stream.length

/-- A field that was just opened has no terms. -/
theorem inv_new {sizes : BlockSizes} (hsizes : sizes.Valid) (info : FieldInfo) (stream : Bytes) :
    Inv sizes { info } stream [] [] :=
  ⟨Frontier.inv_empty sizes hsizes _ stream, rfl, rfl, rfl, rfl, rfl, placed_nil ..⟩

variable {sizes : BlockSizes} {f : FieldWriter} {w : Writer Memory} {stream index directory : Bytes}
  {terms : Terms} {trace : List Run}

/-- A state that is accepted is accepted in its normal form. -/
theorem check_normalized {state : TermState} {hasFreqs : Bool}
    (h : state.check hasFreqs = .ok ()) : (state.normalized hasFreqs).check hasFreqs = .ok () := by
  cases hasFreqs with
  | true => exact h
  | false =>
    rw [TermState.check] at h ⊢
    simpa [TermState.normalized] using h

theorem Inv.tallied (h : f.Inv sizes stream terms trace) : f.Tallied terms :=
  ⟨h.last, h.count, h.sumDocFreq, h.sumTotalFreq, h.minTerm⟩

/-- Noting documents leaves the terms as they are. -/
theorem Inv.record (h : f.Inv sizes stream terms trace) (docs : DocList) :
    (f.record docs).Inv sizes stream terms trace :=
  ⟨h.frontier, h.last, h.count, h.sumDocFreq, h.sumTotalFreq, h.minTerm, h.placed⟩

/-- A term that is not accepted changes nothing. -/
theorem write_refused {state : TermState} {term : Bytes} {e : Error} (hw : w.failed = false)
    (horder : ¬ (0 < f.terms ∧ ¬ f.frontier.last < term))
    (hcheck : (state.normalized f.info.options.hasFreqs).check f.info.options.hasFreqs = .error e) :
    f.write term state w = .error e w := by
  rw [write, bind_ok (Writer.ensureSound_ok hw), if_neg horder]
  simp only [hcheck]
  rfl

/-- A term that sorts after the last is in order. -/
theorem Inv.in_order (h : f.Inv sizes stream terms trace) {term : Bytes}
    (hlt : ∀ t ∈ terms, t.1 < term) :
    ¬ (0 < f.terms ∧ ¬ f.frontier.last < term) ∧ (terms = [] ∨ f.frontier.last < term) := by
  rcases List.eq_nil_or_concat terms with rfl | ⟨front, t, rfl⟩
  · refine ⟨fun hbad => ?_, .inl rfl⟩
    rw [h.count] at hbad
    exact absurd hbad.1 (by decide)
  · have hbefore : f.frontier.last < term := by
      rw [h.last, List.concat_eq_append, Terms.last_concat]
      exact hlt t (by simp)
    exact ⟨fun hbad => hbad.2 hbefore, .inr hbefore⟩

/-- A term that is taken keeps the invariant, with the frontier that took it. -/
theorem Inv.taken {stream' : Bytes} {trace' : List Run} {frontier : Frontier} {term : Bytes}
    {state : TermState} (h : f.Inv sizes stream terms trace) (hlast : frontier.last = term)
    (hfrontier : frontier.Inv sizes f.info.options.hasFreqs frontier.last.length stream'
      (terms ++ [(term, state)]) trace')
    (hplaced : Placed trace' 0 stream'.length) :
    (f.taken frontier term state).Inv sizes stream' (terms ++ [(term, state)]) trace' := by
  obtain ⟨hlast', hcount, hdocFreq, htotalFreq, hmin⟩ := h.tallied.taken state hlast
  exact ⟨hfrontier, hlast', hcount, hdocFreq, htotalFreq, hmin, hplaced⟩

/-- **A term is taken**, unless the index of what it completes has no room. -/
theorem write_spec (hsizes : sizes.Valid) (h : f.Inv sizes stream terms trace)
    (hw : w.Holds stream index directory) (hsame : w.sizes = sizes) {term : Bytes}
    {state : TermState} (hlt : ∀ t ∈ terms, t.1 < term)
    (hcheck : (state.normalized f.info.options.hasFreqs).check f.info.options.hasFreqs
      = .ok ()) :
    (∃ f' w' items new, f.write term state w = .ok f' w' ∧
      Writer.Wrote sizes f.info.options.hasFreqs w w' items new ∧ f'.info = f.info ∧
      f'.docs = f.docs ∧ f'.Inv sizes (stream ++ Item.encodeAll items)
        (terms ++ [(term, state.normalized f.info.options.hasFreqs)]) (trace ++ new)) ∨
    (¬ Room terms ∧ ∃ e, f.write term state w = .error e { w with failed := true }) := by
  obtain ⟨horder, hlast⟩ := h.in_order hlt
  have hleads := Frontier.push_spec hsizes (state.normalized f.info.options.hasFreqs)
    (show (⟨w.terms.position, w.codec, []⟩ : Emission).position = stream.length from
      hw.terms.position) h.frontier hlast
  have hstart : f.write term state w = (Writer.orFail (Writer.emit (f.frontier.push sizes
      f.info.options.hasFreqs term (state.normalized f.info.options.hasFreqs))) >>= fun frontier =>
        pure (f.taken frontier term (state.normalized f.info.options.hasFreqs))) w := by
    rw [write, bind_ok (Writer.ensureSound_ok hw.sound), if_neg horder]
    simp only [hcheck]
    rw [bind_ok (Writer.get_ok w), hsame]
    rfl
  rcases Writer.emit_spec hw hleads with ⟨g, w', items, new, hemit, hwrote, hlast', hinv⟩ |
    ⟨hroom, e, hemit⟩
  · refine .inl ⟨f.taken g term (state.normalized f.info.options.hasFreqs), w', items, new, ?_,
      hwrote, rfl, rfl, h.taken hlast' hinv ?_⟩
    · rw [hstart, bind_ok (Writer.orFail_ok hemit)]
      rfl
    · exact h.placed.append (hwrote.placed hw) (Nat.zero_le _) (by simp)
  · refine .inr ⟨hroom, e, ?_⟩
    rw [hstart, bind_error (Writer.orFail_error hemit)]

end FieldWriter

/-! ## Scripts -/

/-- What is done with an open field. -/
inductive FieldStep where
  | write (term : Bytes) (state : TermState)
  | record (docs : DocList)

namespace FieldStep

/-- The terms that are written. -/
def terms (steps : List FieldStep) : Terms :=
  steps.filterMap fun
    | .write term state => some (term, state)
    | .record _ => none

/-- The documents that are noted. -/
def docs (steps : List FieldStep) : DocList :=
  steps.flatMap fun
    | .write .. => []
    | .record docs => docs

end FieldStep

namespace FieldWriter

/-- Does what the steps say, up to the first that fails. -/
def run {σ : Type} [Sink σ] (f : FieldWriter) : List FieldStep → Writer.Call σ FieldWriter
  | [] => pure f
  | .write term state :: rest => do (← f.write term state).run rest
  | .record docs :: rest => (f.record docs).run rest

/-- The states of the terms are accepted. -/
def Accepted (hasFreqs : Bool) (terms : Terms) : Prop :=
  ∀ t ∈ terms, t.2.check hasFreqs = .ok ()

instance (hasFreqs : Bool) (terms : Terms) : Decidable (Accepted hasFreqs terms) :=
  inferInstanceAs (Decidable (∀ t ∈ terms, t.2.check hasFreqs = .ok ()))

/-- A writer over empty sinks. -/
def fresh (sizes : BlockSizes) : Writer Memory :=
  { segment := default, sizes, terms := ⟨"terms", {}, {}⟩, index := ⟨"index", {}, {}⟩
    directory := ⟨"directory", {}, {}⟩ }

/-- A new writer over memory holds nothing. -/
theorem holds_fresh (sizes : BlockSizes) : (fresh sizes).Holds [] [] [] :=
  ⟨Output.holds_empty _, Output.holds_empty _, Output.holds_empty _, rfl, rfl⟩

/-- What comes of the steps: all their terms are taken, or it ends early, with the terms before a
state that is not accepted or the place where there is no room. -/
def Follows (sizes : BlockSizes) (f : FieldWriter) (w : Writer Memory) (stream : Bytes)
    (terms : Terms) (trace : List Run) (steps : List FieldStep) : Prop :=
  ∃ w' items new, Writer.Wrote sizes f.info.options.hasFreqs w w' items new ∧
    ((∃ f', f.run steps w = .ok f' w' ∧ f'.info = f.info ∧
        f'.docs = f.docs ++ FieldStep.docs steps ∧
        f'.Inv sizes (stream ++ Item.encodeAll items)
          (terms ++ (FieldStep.terms steps).kept f.info.options.hasFreqs) (trace ++ new)) ∨
      (∃ e failed, f.run steps w = .error e { w' with failed }) ∧
        (∃ (f' : FieldWriter) (taken : Terms),
          taken <+: (FieldStep.terms steps).kept f.info.options.hasFreqs ∧
          f'.Inv sizes (stream ++ Item.encodeAll items) (terms ++ taken) (trace ++ new)) ∧
        ¬ (Room (terms ++ (FieldStep.terms steps).kept f.info.options.hasFreqs) ∧
          Accepted f.info.options.hasFreqs (FieldStep.terms steps)))

variable {sizes : BlockSizes} {f : FieldWriter} {w : Writer Memory} {stream index directory : Bytes}
  {terms : Terms} {trace : List Run} {steps : List FieldStep} {term : Bytes} {state : TermState}

/-- Documents noted first change nothing of what follows. -/
theorem Follows.record (docs : DocList)
    (h : (f.record docs).Follows sizes w stream terms trace steps) :
    f.Follows sizes w stream terms trace (.record docs :: steps) := by
  obtain ⟨w', items, new, hwrote, houtcome⟩ := h
  refine ⟨w', items, new, hwrote, houtcome.imp_left ?_⟩
  rintro ⟨f', hrun, hinfo, hdocs, hinv⟩
  refine ⟨f', hrun, hinfo, ?_, hinv⟩
  rw [hdocs]
  exact List.append_assoc ..

/-- A term that is taken goes before what comes of the other steps. -/
theorem Follows.write {f₁ : FieldWriter} {w₁ : Writer Memory} {items : List Item} {new : List Run}
    (hwrite : f.write term state w = .ok f₁ w₁)
    (hwrote : Writer.Wrote sizes f.info.options.hasFreqs w w₁ items new) (hinfo : f₁.info = f.info)
    (hdocs : f₁.docs = f.docs)
    (h : f₁.Follows sizes w₁ (stream ++ Item.encodeAll items)
      (terms ++ [(term, state.normalized f.info.options.hasFreqs)]) (trace ++ new) steps) :
    f.Follows sizes w stream terms trace (.write term state :: steps) := by
  obtain ⟨w', items', new', hwrote', houtcome⟩ := h
  have hterms : terms ++ (FieldStep.terms (.write term state :: steps)).kept f.info.options.hasFreqs
      = terms ++ [(term, state.normalized f.info.options.hasFreqs)]
        ++ (FieldStep.terms steps).kept f.info.options.hasFreqs :=
    (List.append_assoc terms [(term, _)] _).symm
  rw [hinfo] at hwrote' houtcome
  refine ⟨w', items ++ items', new ++ new', hwrote.trans hwrote', ?_⟩
  rw [hterms]
  obtain ⟨f', hrun, hinfo', hdocs', hinv'⟩ |
      ⟨⟨e, failed, hrun⟩, ⟨f', taken, htaken, hinv'⟩, hnot⟩ := houtcome
  · refine .inl ⟨f', (bind_ok hwrite).trans hrun, hinfo', ?_, ?_⟩
    · rw [hdocs', hdocs]
      rfl
    · rw [Item.encodeAll_append, ← List.append_assoc, ← List.append_assoc]
      exact hinv'
  · refine .inr ⟨⟨e, failed, (bind_ok hwrite).trans hrun⟩,
      ⟨f', (term, state.normalized f.info.options.hasFreqs) :: taken, ?_, ?_⟩,
      fun ⟨hroom, haccepted⟩ => ?_⟩
    · exact List.cons_prefix_cons.mpr ⟨rfl, htaken⟩
    · rw [Item.encodeAll_append, ← List.append_assoc, ← List.append_assoc, List.append_cons]
      exact hinv'
    · exact hnot ⟨hroom, fun t ht => haccepted t (List.mem_cons_of_mem _ ht)⟩

/-- Where it ends early, no term is taken any more. -/
theorem Inv.unmoved (h : f.Inv sizes stream terms trace) (more : Terms) :
    ∃ (f' : FieldWriter) (taken : Terms), taken <+: more ∧
      f'.Inv sizes (stream ++ Item.encodeAll []) (terms ++ taken) (trace ++ []) := by
  refine ⟨f, [], List.nil_prefix, ?_⟩
  rwa [Item.encodeAll_nil, List.append_nil, List.append_nil, List.append_nil]

/-- **All terms are taken in order**; that can end early only at a state that is not accepted, or
where there is no room. -/
theorem run_spec (hsizes : sizes.Valid) (steps : List FieldStep) :
    ∀ {f : FieldWriter} {w : Writer Memory} {stream : Bytes} {terms : Terms} {trace : List Run},
      f.Inv sizes stream terms trace → w.Holds stream index directory → w.sizes = sizes →
      (terms.keys ++ (FieldStep.terms steps).keys).Pairwise (· < ·) →
      f.Follows sizes w stream terms trace steps := by
  induction steps with
  | nil =>
    intro f w stream terms trace h _ _ _
    refine ⟨w, [], [], .refl w, .inl ⟨f, rfl, rfl, (List.append_nil _).symm, ?_⟩⟩
    rw [Item.encodeAll_nil, List.append_nil, List.append_nil]
    show f.Inv sizes stream (terms ++ []) trace
    rwa [List.append_nil]
  | cons step steps ih =>
    intro f w stream terms trace h hw hsame hincreasing
    cases step with
    | record docs => exact (ih (h.record docs) hw hsame hincreasing).record docs
    | write term state =>
      have hlt : ∀ t ∈ terms, t.1 < term := fun t ht =>
        (List.pairwise_append.mp hincreasing).2.2 t.1 (List.mem_map_of_mem ht) term
          (List.mem_cons_self ..)
      cases hcheck : (state.normalized f.info.options.hasFreqs).check f.info.options.hasFreqs with
      | error e =>
        -- the state is not accepted, so not all of them are
        refine ⟨w, [], [], .refl w, .inr ⟨⟨e, w.failed, ?_⟩, h.unmoved _, fun ⟨_, haccepted⟩ => ?_⟩⟩
        · rw [run, bind_error (write_refused hw.sound (h.in_order hlt).1 hcheck)]
        · have hok := check_normalized (haccepted (term, state) (List.mem_cons_self ..))
          rw [hcheck] at hok
          cases hok
      | ok =>
        rcases write_spec hsizes h hw hsame hlt hcheck with
          ⟨f₁, w₁, items, new, hwrite, hwrote, hinfo, hdocs, hinv⟩ | ⟨hroom, e, hwrite⟩
        · have hkeys : (Terms.keys (terms ++ [(term, state.normalized f.info.options.hasFreqs)])
              ++ (FieldStep.terms steps).keys).Pairwise (· < ·) := by
            rw [Terms.keys, List.map_append, List.append_assoc]
            exact hincreasing
          exact .write hwrite hwrote hinfo hdocs
            (ih hinv (hwrote.holds hw) (hwrote.sizes_eq.trans hsame) hkeys)
        · refine ⟨w, [], [], .refl w,
            .inr ⟨⟨e, true, bind_error hwrite⟩, h.unmoved _, fun ⟨hfits, _⟩ => ?_⟩⟩
          exact hroom hfits.of_append

end FieldWriter

end Lexicon

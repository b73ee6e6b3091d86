import Lexicon.Proofs.Segment.Accounts
import Lexicon.Proofs.Segment.Copies
import Lexicon.Proofs.Segment.RoundTrip

/-!
# Sessions replayed

What the calls of a session did is a script (`Session.scripts`), and a script that went well says of
itself that its terms and fields are in order. So a session that gave its sinks, whatever they are
and whatever was refused before, is a run of the script over sinks in memory, with the same bytes in
the end; all that has to be assumed is that the formats can hold them (`SegmentScript.Bounded`).

> **`Session.replay`** — a session that gave its sinks is a run of its script.
-/

namespace Lexicon

/-! ## What was taken was in order -/

theorem TermState.check_of_normalized {state : TermState} {hasFreqs : Bool}
    (h : (state.normalized hasFreqs).check hasFreqs = .ok ()) : state.check hasFreqs = .ok () := by
  cases hasFreqs with
  | true => exact h
  | false =>
    rw [check] at h ⊢
    simpa [normalized] using h

namespace FieldWriter

variable {σ : Type} [Sink σ] {f : FieldWriter} {terms : Terms} {term : Bytes}

/-- A term that sorts after the last one sorts after all. -/
theorem Tallied.lt_of_last_lt (h : f.Tallied terms) (hkeys : terms.keys.Pairwise (· < ·))
    (hroom : Room terms) (horder : 0 < f.terms → f.frontier.last < term) :
    ∀ key ∈ terms.keys, key < term := by
  refine hkeys.of_last (fun _ _ => List.lt_trans) fun key hkey => ?_
  have hne : terms ≠ [] := fun hnil => by
    rw [hnil] at hkey
    cases hkey
  -- there are too few terms for the count to begin anew
  have hpos : 0 < f.terms := by
    have hlt := hroom.length_lt (List.pairwise_map.mp hkeys)
    rw [h.count, UInt64.lt_iff_toNat_lt, UInt64.toNat_ofNat_of_lt' hlt]
    exact List.length_pos_of_ne_nil hne
  have hlast := horder hpos
  rw [Terms.keys, List.getLast?_map] at hkey
  rwa [h.last, Terms.last, hkey] at hlast

/-- **Terms that were taken are in order**, and their states are accepted. -/
theorem run_acceptable (steps : List FieldStep) : ∀ {f f' : FieldWriter} {w w' : Writer σ}
    {terms : Terms}, f.run steps w = .ok f' w' → f.Tallied terms →
      terms.keys.Pairwise (· < ·) →
      Room (terms ++ (FieldStep.terms steps).kept f.info.options.hasFreqs) →
      (terms.keys ++ (FieldStep.terms steps).keys).Pairwise (· < ·) ∧
        Accepted f.info.options.hasFreqs (FieldStep.terms steps) := by
  induction steps with
  | nil =>
    intro f f' w w' terms _ _ hkeys _
    refine ⟨?_, List.forall_mem_nil _⟩
    show (terms.keys ++ []).Pairwise (· < ·)
    rwa [List.append_nil]
  | cons step steps ih =>
    intro f f' w w' terms hrun htallied hkeys hroom
    cases step with
    | write term state =>
      obtain ⟨f₁, w₁, hwrite, hrest⟩ := exists_of_bind_ok hrun
      obtain ⟨horder, hcheck, frontier, hlast, rfl⟩ := of_write_ok hwrite
      have hlt := htallied.lt_of_last_lt hkeys hroom.of_append horder
      have hkeys' : (Terms.keys
          (terms ++ [(term, state.normalized f.info.options.hasFreqs)])).Pairwise (· < ·) := by
        rw [Terms.keys, List.map_append]
        exact hkeys.concat hlt
      have hroom' : Room ((terms ++ [(term, state.normalized f.info.options.hasFreqs)])
          ++ (FieldStep.terms steps).kept f.info.options.hasFreqs) := by
        rw [List.append_assoc]
        exact hroom
      obtain ⟨hincreasing, haccepted⟩ :=
        ih hrest (htallied.taken _ hlast) hkeys' hroom'
      refine ⟨?_, List.forall_mem_cons.mpr ⟨TermState.check_of_normalized hcheck, haccepted⟩⟩
      rw [Terms.keys, List.map_append, List.append_assoc] at hincreasing
      exact hincreasing
    | record docs => exact ih (f := f.record docs) hrun (htallied.record docs) hkeys hroom

end FieldWriter

namespace Writer

variable {σ : Type}

theorem tally_start [Sink σ] {segment : Segment} {sizes : BlockSizes} {sinks : Streams σ}
    {w : Writer σ} (h : start segment sizes sinks = (.ok (), w)) :
    w.Tally [] ∧ w.infos = [] ∧ w.summaries = [] := by
  obtain ⟨-, _, _, _, -, -, -, rfl⟩ := exists_of_start h
  exact ⟨⟨.nil, rfl, [], rfl, .nil, List.forall_mem_nil _⟩, rfl, rfl⟩

/-- A field that is opened keeps the numbers in order. -/
theorem numbers_of_openField {info : FieldInfo} {f : FieldWriter} {w w' : Writer σ}
    (hopen : openField info w = .ok f w') (hnumbers : w.infos.Pairwise (·.number < ·.number)) :
    w'.infos = w.infos ++ [info] ∧ w'.infos.Pairwise (·.number < ·.number) := by
  obtain ⟨-, habove⟩ := of_openField_ok hopen
  obtain ⟨-, -, rfl⟩ := openField_ok_cases hopen
  exact ⟨rfl, hnumbers.concat (hnumbers.of_last (fun _ _ => UInt32.lt_trans) habove)⟩

variable [Sink σ]

/-- **A field that was written was acceptable**, and its number above those before. -/
theorem run_acceptable {s : FieldScript} {w w' : Writer σ} (hrun : s.run w = .ok () w')
    (hroom : Room s.terms) (hnumbers : w.infos.Pairwise (·.number < ·.number)) :
    s.Acceptable ∧ w'.infos = w.infos ++ [s.info] ∧ w'.infos.Pairwise (·.number < ·.number) := by
  obtain ⟨f₀, w₁, hopen, hrun⟩ := exists_of_bind_ok hrun
  obtain ⟨hinfos, hnumbers⟩ := numbers_of_openField hopen hnumbers
  obtain rfl := (of_openField_ok hopen).1
  obtain ⟨f, w₂, hsteps, hrun⟩ := exists_of_bind_ok hrun
  obtain ⟨hincreasing, haccepted⟩ := FieldWriter.run_acceptable s.steps hsteps
    (FieldWriter.tallied_new s.info) .nil (hroom.kept _)
  obtain ⟨-, -, -, hgrew⟩ :=
    FieldWriter.run_tallied s.steps hsteps (FieldWriter.tallied_new s.info)
  have hsame : w'.infos = w₂.infos := by
    split at hrun
    next =>
      obtain ⟨summary, w₃, hfinish, hdone⟩ := exists_of_bind_ok hrun
      cases hdone
      obtain ⟨w₄, hcomplete, rfl⟩ := FieldWriter.of_finish_ok hfinish
      exact ((FieldWriter.keeps_complete f).ok hcomplete).infos
    next =>
      cases hrun
      rfl
  rw [hsame, hgrew.infos]
  exact ⟨⟨hincreasing, haccepted, hroom⟩, hinfos, hnumbers⟩

/-- **Fields that were written were acceptable**, and in the order of their numbers. -/
theorem runAll_acceptable (scripts : List FieldScript) : ∀ {w w' : Writer σ},
    runAll scripts w = .ok () w' → (∀ s ∈ scripts, Room s.terms) →
      w.infos.Pairwise (·.number < ·.number) →
      (∀ s ∈ scripts, s.Acceptable) ∧
        (w.infos ++ scripts.map (·.info)).Pairwise (·.number < ·.number) := by
  induction scripts with
  | nil =>
    intro w w' _ _ hnumbers
    refine ⟨List.forall_mem_nil _, ?_⟩
    rwa [List.map_nil, List.append_nil]
  | cons s scripts ih =>
    intro w w' hrun hroom hnumbers
    obtain ⟨hfirst, hrest⟩ := List.forall_mem_cons.mp hroom
    obtain ⟨_, w₁, hs, hscripts⟩ := exists_of_bind_ok hrun
    obtain ⟨hacceptable, hinfos, hnumbers⟩ := run_acceptable hs hfirst hnumbers
    obtain ⟨hothers, hall⟩ := ih hscripts hrest hnumbers
    refine ⟨List.forall_mem_cons.mpr ⟨hacceptable, hothers⟩, ?_⟩
    rwa [hinfos, List.append_assoc] at hall

end Writer

/-! ## Scripts that went well -/

/-- A stream that is ended has what was written to it, something more and a footer. -/
theorem Writer.Finished.holds {out out' : Output Memory} {bs : Bytes} (h : Finished out out')
    (hout : out.Holds bs) : ∃ more, out'.Holds (Frame.framed (bs ++ more)) := by
  obtain ⟨items, body, framed, hitems, hfooter, hflush⟩ := h
  obtain ⟨body', hbody, hholds⟩ := Output.items_spec hout items
  cases hbody.symm.trans hitems
  obtain ⟨framed', hframed, hholds⟩ := Frame.writeFooter_spec hholds
  cases hframed.symm.trans hfooter
  obtain ⟨flushed, hflushed, hholds⟩ := Output.flush_spec hholds
  cases hflushed.symm.trans hflush
  exact ⟨_, hholds⟩

namespace SegmentScript

/-- The formats can hold what is written of the segment. -/
structure Bounded (s : SegmentScript) (streams : Streams Bytes) : Prop where
  suffix : (Bytes.ofString s.segment.suffix).length < 2 ^ 32
  count : s.fields.length < 2 ^ 32
  room : ∀ f ∈ s.fields, Room f.terms
  /-- No block is too large for its format. -/
  small : ∀ f ∈ s.finished, f.kept.Small s.sizes
  /-- An offset in the stream of blocks is stored together with two flags. -/
  terms : streams.terms.length ≤ 2 ^ 62
  index : streams.index.length < 2 ^ 63

variable {s : SegmentScript} {w₀ w w' : Writer Memory}

theorem written_eq (hstart : Writer.start s.segment s.sizes ⟨{}, {}, {}⟩ = (.ok (), w₀))
    (hrun : Writer.runAll s.fields w₀ = .ok () w) : s.written = .ok w := by
  rw [written, hstart]
  simp only [hrun]

theorem streams_eq (hwritten : s.written = .ok w) (hclose : Writer.close w = .ok () w') :
    s.streams = .ok ⟨w'.terms.sink.bytes, w'.index.sink.bytes, w'.directory.sink.bytes⟩ := by
  rw [streams, hwritten, ok_bind, Writer.intoStreams_eq, hclose]
  rfl

/-- **A script that went well can be stored**, if the formats can hold it. -/
theorem storable_of_close (hstart : Writer.start s.segment s.sizes ⟨{}, {}, {}⟩ = (.ok (), w₀))
    (hrun : Writer.runAll s.fields w₀ = .ok () w) (hclose : Writer.close w = .ok () w')
    (hbounded : s.Bounded ⟨w'.terms.sink.bytes, w'.index.sink.bytes, w'.directory.sink.bytes⟩)
    (htotal : ∀ f ∈ s.finished, f.kept.totalFreqs < 2 ^ 64) : s.Storable := by
  have hsizes := (Writer.exists_of_start hstart).1
  obtain ⟨-, hnone, -⟩ := Writer.tally_start hstart
  obtain ⟨hacceptable, hnumbers⟩ := Writer.runAll_acceptable s.fields hrun hbounded.room
    (by rw [hnone]; exact .nil)
  rw [hnone, List.nil_append] at hnumbers
  refine ⟨hsizes, hnumbers, hbounded.count, hacceptable, hbounded.small, htotal, hbounded.suffix,
    ?_⟩
  intro w₁ hw₁
  obtain rfl := Except.ok.inj ((written_eq hstart hrun).symm.trans hw₁)
  -- the positions of the writer are no larger than the streams in the end
  obtain ⟨start, hstart', hhas⟩ := Writer.start_spec s.segment hsizes
  cases hstart'.symm.trans hstart
  obtain ⟨_, _, _, _, hrun', hhas', -, -⟩ := Writer.runAll_spec
    (BlockSizes.valid_of_check hsizes) s.fields hhas hacceptable hnumbers
  cases hrun'.symm.trans hrun
  obtain ⟨-, -, -, ⟨hclosed, -⟩ | ⟨terms, index, directory, hterms, hindex, -, rfl⟩⟩ :=
    Writer.close_ok hclose
  · rw [hhas'.holds.unclosed] at hclosed
    cases hclosed
  · obtain ⟨moreTerms, hterms⟩ := hterms.holds hhas'.holds.terms
    obtain ⟨moreIndex, hindex⟩ := hindex.holds hhas'.holds.index
    have hlong := hbounded.terms
    have hshort := hbounded.index
    simp only [hterms.bytes, hindex.bytes, Frame.length_framed, List.length_append] at hlong hshort
    rw [hhas'.holds.terms.position, hhas'.holds.index.position, List.length_append,
      List.length_append, Frame.footerLength]
    omega

end SegmentScript

/-! ## Sessions -/

namespace Session

variable {σ : Type} [Sink σ] {content : σ → Bytes} {segment : Segment} {sizes : BlockSizes}
  {sinks given : Streams σ} {w : Writer σ} {requests : List Request}

/-- The script of a session. -/
def script (segment : Segment) (sizes : BlockSizes) (h : List (Exchange σ)) : SegmentScript :=
  ⟨segment, sizes, scripts h⟩

/-- **A session that gave its sinks is a run of its script.** -/
theorem replay (hcontent : Sink.Readable content) (hempty : sinks.map content = ⟨[], [], []⟩)
    (hstart : Writer.start segment sizes sinks = (.ok (), w))
    (hgiven : ∃ x ∈ (idle w).history requests, x.reply = .ok (.sinks given)) :
    let s := script segment sizes ((idle w).history requests)
    (∃ w₁, s.written = .ok w₁ ∧ w₁.summaries = summaries ((idle w).history requests)) ∧
      s.streams = .ok (given.map content) ∧
      (s.Bounded (given.map content) → (∀ f ∈ s.finished, f.kept.totalFreqs < 2 ^ 64) →
        s.Storable) := by
  intro s
  obtain ⟨htally, -, hnone⟩ := Writer.tally_start hstart
  obtain ⟨w₁, w₂, hrun, hclose, hfinal, rfl⟩ := ended_of_given htally hgiven
  have hstart' := Writer.start_inMemory hcontent hempty hstart
  have hrun' := Writer.copies_runAll hcontent _ hrun
  have hclose' := Writer.copies_close hcontent hclose
  have hwritten : s.written = .ok (w₁.inMemory content) :=
    SegmentScript.written_eq hstart' hrun'
  refine ⟨⟨_, hwritten, ?_⟩, SegmentScript.streams_eq hwritten hclose', ?_⟩
  · have hsummaries := summaries_history requests (idle w)
    rw [hfinal] at hsummaries
    show w₁.summaries = _
    rw [← (Writer.keeps_close.ok hclose).summaries]
    show (spent w₂).writer.summaries = _
    rw [hsummaries]
    show w.summaries ++ _ = _
    rw [hnone, List.nil_append]
  · exact SegmentScript.storable_of_close hstart' hrun' hclose'

end Session

end Lexicon

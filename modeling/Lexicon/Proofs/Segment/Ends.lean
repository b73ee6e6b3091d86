import Lexicon.Proofs.Monotonic
import Lexicon.Proofs.Segment.Fields

/-!
# The two ends of a segment

Before its fields a segment has the headers of its streams; after them, the table of where their
indexes start, the directory and the footers. `Sealed` says what the sinks hold in the end.

> **`start_spec`** — a segment is started;
> **`intoStreams_spec`** — and ended, whatever fields it has.
-/

namespace Lexicon

/-- The header of a segment's stream, as bytes. -/
def headerBytes (segment : Segment) (codec : String) : Bytes :=
  Item.encodeAll (Streams.header segment codec)

namespace Writer

section

variable {σ α : Type} {c : Write σ α} {a : α} {w : Writer σ} {out : Output σ}

theorem onTerms_ok (h : c w.terms = .ok a out) : onTerms c w = .ok a { w with terms := out } := by
  rw [onTerms, h]

theorem onIndex_ok (h : c w.index = .ok a out) : onIndex c w = .ok a { w with index := out } := by
  rw [onIndex, h]

theorem onDirectory_ok (h : c w.directory = .ok a out) :
    onDirectory c w = .ok a { w with directory := out } := by
  rw [onDirectory, h]

end

/-- A segment is started if its headers are written. -/
theorem start_of_items {σ : Type} [Sink σ] {segment : Segment} {sizes : BlockSizes}
    {sinks : Streams σ} {terms index directory : Output σ} (hsizes : sizes.check = .ok ())
    (hterms : Output.items (Streams.header segment Streams.codecs.terms)
      ⟨(Streams.names segment).terms, sinks.terms, {}⟩ = .ok () terms)
    (hindex : Output.items (Streams.header segment Streams.codecs.index)
      ⟨(Streams.names segment).index, sinks.index, {}⟩ = .ok () index)
    (hdirectory : Output.items (Streams.header segment Streams.codecs.directory)
      ⟨(Streams.names segment).directory, sinks.directory, {}⟩ = .ok () directory) :
    start segment sizes sinks = (.ok (), { segment, sizes, terms, index, directory }) := by
  rw [start]
  simp only [hsizes]
  rw [bind_ok (onTerms_ok hterms), bind_ok (onIndex_ok hindex), onDirectory_ok hdirectory]

/-- **A segment is started** with sizes that can be used. -/
theorem start_spec (segment : Segment) {sizes : BlockSizes} (hsizes : sizes.check = .ok ()) :
    ∃ w : Writer Memory, start segment sizes ⟨{}, {}, {}⟩ = (.ok (), w) ∧
      w.Has sizes [] [] (headerBytes segment Streams.codecs.terms)
        (headerBytes segment Streams.codecs.index)
        (headerBytes segment Streams.codecs.directory) := by
  obtain ⟨terms, hterms, hterms'⟩ := Output.items_spec
    (Output.holds_empty (Streams.names segment).terms)
    (Streams.header segment Streams.codecs.terms)
  obtain ⟨index, hindex, hindex'⟩ := Output.items_spec
    (Output.holds_empty (Streams.names segment).index)
    (Streams.header segment Streams.codecs.index)
  obtain ⟨directory, hdirectory, hdirectory'⟩ := Output.items_spec
    (Output.holds_empty (Streams.names segment).directory)
    (Streams.header segment Streams.codecs.directory)
  exact ⟨{ segment, sizes, terms, index, directory },
    start_of_items hsizes hterms hindex hdirectory, ⟨hterms', hindex', hdirectory', rfl, rfl⟩,
    rfl, rfl, rfl, by simp, by simp, .nil⟩

end Writer

/-! ## The end of a segment -/

/-- The bytes of the table of where the indexes start. -/
def startsBytes (fields : List StoredField) : Bytes :=
  Monotonic.encodeRow (2 ^ Streams.startsShift - 1) (fields.map (·.indexStart))

/-- All of the stream of indexes but its footer. -/
def indexBody (fields : List StoredField) (index : Bytes) : Bytes :=
  index ++ (startsBytes fields ++ (Item.u64 (UInt64.ofNat index.length)).encode)

/-- The directory of a segment with these fields, given its other streams but for their footers. -/
def directoryOf (fields : List StoredField) (stream index : Bytes) : Directory :=
  ⟨fields.map StoredField.summary, UInt64.ofNat (Frame.framed index).length,
    UInt64.ofNat (Frame.framed stream).length⟩

/-- The sinks of a segment that was ended. -/
structure Sealed (fields : List StoredField) (stream index directory : Bytes)
    (sinks : Streams Memory) : Prop where
  terms_eq : sinks.terms.bytes = Frame.framed stream
  index_eq : sinks.index.bytes = Frame.framed (indexBody fields index)
  directory_eq : sinks.directory.bytes = Frame.framed
    (directory ++ Item.encodeAll (directoryOf fields stream (indexBody fields index)).items)

namespace Writer

variable {sizes : BlockSizes} {w : Writer Memory} {infos : List FieldInfo}
  {fields : List StoredField} {stream index directory : Bytes}

/-- The table holds where the indexes start. -/
theorem startsTable_ok (h : w.Has sizes infos fields stream index directory)
    (hindex : index.length < 2 ^ 63) : startsTable w.summaries = .ok (startsBytes fields) := by
  have hstarts : (w.summaries.map fun s => s.indexStart.toNat) = fields.map (·.indexStart) := by
    rw [h.summaries_eq, List.map_map]
    refine List.map_congr_left fun s hs => ?_
    have := h.before s hs
    rw [Function.comp_apply, s.summary_indexStart,
      UInt64.toNat_ofNat_of_lt' (show _ < 2 ^ 64 by omega)]
  have hsorted : (fields.map (·.indexStart)).Pairwise (· ≤ ·) := List.pairwise_map.mpr h.starts
  obtain ⟨b, hfold, hfinish⟩ := Monotonic.Builder.foldlM_add (fields.map (·.indexStart))
    { shift := Streams.startsShift } (Nat.zero_le _) ⟨by simp, hsorted⟩
  have hnew : Monotonic.Builder.new Streams.startsShift = .ok { shift := Streams.startsShift } :=
    rfl
  rw [← hstarts, List.foldlM_map] at hfold
  rw [startsTable, hnew]
  show ((w.summaries.foldlM (fun b s => b.add s.indexStart.toNat)
    ({ shift := Streams.startsShift } : Monotonic.Builder)) >>= fun b => Except.ok b.finish) = _
  rw [hfold]
  show Except.ok b.finish = _
  rw [hfinish]
  rfl

/-- **The streams are ended.** -/
theorem writeTrailers_spec (hterms : w.terms.Holds stream) (hindex : w.index.Holds index)
    (hdirectory : w.directory.Holds directory)
    (hsummaries : w.summaries = fields.map StoredField.summary)
    (htable : startsTable w.summaries = .ok (startsBytes fields)) :
    ∃ w', writeTrailers w = .ok () w' ∧
      Sealed fields stream index directory ⟨w'.terms.sink, w'.index.sink, w'.directory.sink⟩ := by
  -- the directory names where the other two streams end, so these get their footers first
  obtain ⟨i₁, hi₁, hi₁'⟩ := Output.items_spec hindex
    [.bytes (startsBytes fields), .u64 (UInt64.ofNat w.index.position)]
  obtain ⟨i₂, hi₂, hi₂'⟩ := Frame.writeFooter_spec hi₁'
  obtain ⟨t₁, ht₁, ht₁'⟩ := Frame.writeFooter_spec hterms
  obtain ⟨d₁, hd₁, hd₁'⟩ := Output.items_spec hdirectory
    (⟨w.summaries, UInt64.ofNat i₂.position, UInt64.ofNat t₁.position⟩ : Directory).items
  obtain ⟨d₂, hd₂, hd₂'⟩ := Frame.writeFooter_spec hd₁'
  obtain ⟨t₂, ht₂, ht₂'⟩ := Output.flush_spec ht₁'
  obtain ⟨i₃, hi₃, hi₃'⟩ := Output.flush_spec hi₂'
  obtain ⟨d₃, hd₃, hd₃'⟩ := Output.flush_spec hd₂'
  have hbody : index ++ Item.encodeAll [.bytes (startsBytes fields),
      .u64 (UInt64.ofNat w.index.position)] = indexBody fields index := by
    rw [hindex.position, Item.encodeAll_cons, Item.encodeAll_singleton]
    rfl
  rw [hbody] at hi₂' hi₃'
  rw [hsummaries, hi₂'.position, ht₁'.position] at hd₃'
  refine ⟨{ w with terms := t₂, index := i₃, directory := d₃ }, ?_, ht₂'.bytes, hi₃'.bytes,
    hd₃'.bytes⟩
  rw [writeTrailers, bind_ok (get_ok _)]
  simp only [htable]
  have hindex₁ : onIndex (Output.items [.bytes (startsBytes fields),
      .u64 (UInt64.ofNat w.index.position)]) w = .ok () { w with index := i₁ } := onIndex_ok hi₁
  have hindex₂ : onIndex Frame.writeFooter { w with index := i₁ } = .ok () { w with index := i₂ } :=
    onIndex_ok hi₂
  have hterms₁ : onTerms Frame.writeFooter { w with index := i₂ }
      = .ok () { w with index := i₂, terms := t₁ } := onTerms_ok ht₁
  have hdirectory₁ : onDirectory (Output.items (⟨w.summaries, UInt64.ofNat i₂.position,
      UInt64.ofNat t₁.position⟩ : Directory).items) { w with index := i₂, terms := t₁ }
      = .ok () { w with index := i₂, terms := t₁, directory := d₁ } := onDirectory_ok hd₁
  have hdirectory₂ :
      onDirectory Frame.writeFooter { w with index := i₂, terms := t₁, directory := d₁ }
      = .ok () { w with index := i₂, terms := t₁, directory := d₂ } := onDirectory_ok hd₂
  have hterms₂ : onTerms Output.flush { w with index := i₂, terms := t₁, directory := d₂ }
      = .ok () { w with index := i₂, terms := t₂, directory := d₂ } := onTerms_ok ht₂
  have hindex₃ : onIndex Output.flush { w with index := i₂, terms := t₂, directory := d₂ }
      = .ok () { w with index := i₃, terms := t₂, directory := d₂ } := onIndex_ok hi₃
  rw [bind_ok hindex₁, bind_ok hindex₂, bind_ok hterms₁, bind_ok (get_ok _), bind_ok hdirectory₁,
    bind_ok hdirectory₂, bind_ok hterms₂, bind_ok hindex₃]
  exact onDirectory_ok hd₃

/-- **A segment is ended**, whatever fields it has. -/
theorem intoStreams_spec (h : w.Has sizes infos fields stream index directory)
    (hindex : index.length < 2 ^ 63) :
    ∃ sinks w', intoStreams w = .ok sinks w' ∧ Sealed fields stream index directory sinks := by
  have htable := startsTable_ok h hindex
  obtain ⟨w', htrailers, hsealed⟩ := writeTrailers_spec (w := { w with closed := true })
    h.holds.terms h.holds.index h.holds.directory h.summaries_eq htable
  have hclose : close w = .ok () w' := by
    rw [close, bind_ok (ensureSound_ok h.holds.sound), bind_ok (get_ok w), h.holds.unclosed]
    show (modify _ >>= _ : Call Memory Unit) w = _
    rw [bind_ok (show (modify fun w => { w with closed := true } : Call Memory _) w
      = .ok () { w with closed := true } from rfl)]
    exact orFail_ok htrailers
  exact ⟨_, w', by rw [intoStreams, bind_ok hclose, bind_ok (get_ok w')]; rfl, hsealed⟩

end Writer

end Lexicon

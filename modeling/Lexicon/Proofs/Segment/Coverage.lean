import Lexicon.Proofs.Block.Extents
import Lexicon.Proofs.Segment.Reached

/-!
# Every block is visited once

A walk over everything goes from the root code of a field along floor siblings and into sub-blocks.
Nothing in a stream says how far its blocks reach as a whole, and no reader counts what it has seen.
That nothing is left out or met twice comes of two things put together: what a walk visits are the
blocks of all runs of the field (`Shows.tours`), and the blocks of all fields were emitted back to
back (`Adds.tiles`).

> **`SegmentScript.blocks_cover`** — the blocks that are visited from the roots of all fields part
> what is between the header and the footer among them.
-/

namespace Lexicon

/-! ## What is visited -/

namespace Block

/-- Number of terms among its entries. -/
def termCount (b : Block) : Nat := b.entries.countP BlockEntry.isTerm

end Block

namespace Piece

/-- Number of terms among its entries. -/
def termCount (p : Piece) : Nat := p.entries.countP Entry.isTerm

end Piece

/-- The shapes of the blocks among what was met. -/
def shapesMet (found : List Found) : List BlockShape :=
  found.filterMap fun
    | .block s => some s
    | .term .. => none

theorem shapesMet_append (a b : List Found) :
    shapesMet (a ++ b) = shapesMet a ++ shapesMet b := List.filterMap_append

/-- Among a block and what is met in it are its shape and the shapes met in it. -/
theorem shapesMet_block (s : BlockShape) (found : List Found) :
    shapesMet (.block s :: found) = s :: shapesMet found := rfl

/-- As many terms are seen as were written. -/
theorem termCount_seen (depth : Nat) (hasFreqs : Bool) (entries : List Entry) :
    (entries.map (Entry.seen depth hasFreqs)).countP BlockEntry.isTerm
      = entries.countP Entry.isTerm := by
  rw [List.countP_map]
  exact List.countP_congr fun e _ => by rw [Function.comp_apply, e.isTerm_seen]

/-- The terms of a run are those of its pieces. -/
theorem Run.countP_entries (r : Run) :
    r.entries.countP Entry.isTerm = (r.pieces.map Piece.termCount).sum := by
  rw [Run.entries, List.countP_flatMap]
  rfl

/-- **Every term is an entry of one piece**: of the entries themselves, or of the runs below. -/
theorem Stands.length_terms {sizes : BlockSizes} {stored : Run → Prop} {entries : List Entry}
    {terms : Terms} {runs : List Run} (h : Stands sizes stored entries terms runs) :
    terms.length = entries.countP Entry.isTerm
      + ((runs.flatMap (·.pieces)).map Piece.termCount).sum := by
  induction h with
  | nil => rfl
  | term _ ih =>
    rw [List.length_cons, ih, List.countP_cons_of_pos rfl]
    omega
  | @block b r inside terms rest below runs _ _ _ _ _ _ _ _ ihInner ihOthers =>
    rw [List.length_append, ihInner, ihOthers, r.countP_entries,
      List.countP_cons_of_neg (by simp [Entry.isTerm]), List.flatMap_append, List.flatMap_cons,
      List.map_append, List.map_append, List.sum_append, List.sum_append]
    omega

/-- The terms of a field are counted block by block. -/
theorem Rooted.length_terms {sizes : BlockSizes} {stored : Run → Prop} {index : Transducer}
    {terms : Terms} {runs : List Run} (h : Rooted sizes stored index terms runs) :
    terms.length = ((runs.flatMap (·.pieces)).map Piece.termCount).sum := by
  obtain ⟨r, below, rfl, -, -, -, hstands, -⟩ := h
  rw [hstands.length_terms, r.countP_entries, List.flatMap_cons, List.map_append, List.sum_append]

namespace FieldReader

variable {f : FieldReader} {sizes : BlockSizes} {stored : Run → Prop} {entries : List Entry}
  {terms : Terms} {runs : List Run} {stem : Bytes}

/-- What was met was met in blocks of the stream. -/
def Sighted (f : FieldReader) (found : List Found) : Prop :=
  ∀ s ∈ shapesMet found, ∃ first b, f.Decodes s.fp b ∧ s = shape s.fp s.stem first b

/-- What is sighted in two parts is sighted. -/
theorem sighted_append {a b : List Found} (ha : f.Sighted a) (hb : f.Sighted b) :
    f.Sighted (a ++ b) := by
  intro s hs
  rw [shapesMet_append] at hs
  rcases List.mem_append.mp hs with hs | hs
  · exact ha s hs
  · exact hb s hs

/-- Whatever the codec, the walk ends and visits the blocks of just these pieces, in some order. -/
def Tours (f : FieldReader) (walk : LongsCodec → Walked) (pieces : List Piece) : Prop :=
  ∀ codec, ∃ found codec', walk codec = some (.ok found codec') ∧ f.Sighted found ∧
    ((shapesMet found).map fun s => (s.fp, s.terms)).Perm (pieces.map fun p => (p.fp, p.termCount))

/-- A block that is seen has the terms of its piece. -/
theorem termCount_eq {hasFreqs : Bool} {depth : Nat} {b : Block} {entries : List Entry} {fp : Nat}
    (h : b.entries = entries.map (Entry.seen depth hasFreqs)) :
    b.termCount = Piece.termCount ⟨fp, entries⟩ := by
  rw [Block.termCount, h, termCount_seen]
  rfl

/-- What is met on a walk is sighted. -/
theorem Met.sighted {wanted : Bytes} {pieces : List Piece} {found : List Found}
    (h : f.Met wanted terms pieces found) : f.Sighted found := by
  induction h with
  | nil => exact fun s hs => nomatch hs
  | term => exact fun s hs => nomatch hs
  | passed => exact fun s hs => nomatch hs
  | append _ _ ihHere ihBehind => exact sighted_append ihHere ihBehind
  | @block _ _ first b codec codec' _ _ _ _ reads _ _ ih =>
    intro s hs
    rw [shapesMet_block] at hs
    rcases List.mem_cons.mp hs with rfl | hs
    · exact ⟨first, b, ⟨codec, codec', reads⟩, rfl⟩
    · exact ih s hs
  | perm _ _ ih => exact ih

/-- What is met on a walk over everything are the blocks of all the pieces. -/
theorem Met.shapes_perm {pieces : List Piece} {found : List Found}
    (h : f.Met [] terms pieces found) :
    ((shapesMet found).map fun s => (s.fp, s.terms)).Perm
      (pieces.map fun p => (p.fp, p.termCount)) := by
  induction h with
  | nil => exact .refl _
  | term => exact .refl _
  | passed some => exact absurd rfl some
  | append _ _ ihHere ihBehind =>
    rw [shapesMet_append, List.map_append, List.map_append]
    exact ihHere.append ihBehind
  | block _ entries_eq _ ih =>
    rw [shapesMet_block, List.map_cons, List.map_cons, ← termCount_eq entries_eq]
    exact ih.cons _
  | perm _ same ih => exact ih.trans (same.map _)

/-- **A walk over everything visits the pieces of a run and of all runs below**, if there may be a
call for each. -/
theorem walkWithin_tours (calls : Nat) (first : Bool) {fp : Nat} {pieces : List Piece}
    (hchain : Chain f.terms f.info.options.hasFreqs stem.length fp pieces)
    (hstem : ∀ e ∈ pieces.flatMap (·.entries), stem <+: e.key)
    (hstands : Stands sizes (Held f.terms f.info.options.hasFreqs) (pieces.flatMap (·.entries))
      terms runs)
    (hblocks : pieces.length + blockCount runs ≤ calls) :
    f.Tours (f.walkWithin [] calls first fp stem) (pieces ++ runs.flatMap (·.pieces)) := by
  intro codec
  obtain ⟨found, codec', hfound, hmet⟩ :=
    walkWithin_follows [] calls first hchain hstem hstands hblocks codec
  exact ⟨found, codec', hfound, hmet.sighted, hmet.shapes_perm⟩

/-- A walk over the field visits the blocks of all its runs. -/
theorem Shows.tours (h : f.Shows sizes terms runs) (hroot : f.RootCoded) :
    ∃ shapes, (∀ codec, ∃ codec', f.blockShapes codec = .ok shapes codec') ∧
      (∀ s ∈ shapes, ∃ first b, f.Decodes s.fp b ∧ s = shape s.fp s.stem first b) ∧
      (shapes.map fun s => (s.fp, s.terms)).Perm
        ((runs.flatMap (·.pieces)).map fun p => (p.fp, p.termCount)) := by
  obtain ⟨t, hindex, top, below, rfl, hstem, hsound, hheld, hstands, -⟩ := id h.index
  obtain ⟨top', below', heq, -, -, hdecode⟩ := h.exists_top hroot
  obtain ⟨rfl, rfl⟩ := List.cons.inj heq
  have hcount := h.blockCount_le
  rw [blockCount_cons] at hcount
  obtain ⟨found, codec', hfound, hsighted, hshapes⟩ := walkWithin_tours f.deepest true hheld.chain
    (fun e he => (hsound.within e he).prefix_key) hstands hcount {}
  have hwalk : f.walk [] true top.location.fp [] {} = some (.ok found codec') := by
    rwa [hstem, ← top.location_fp] at hfound
  refine ⟨shapesMet found, fun codec => ⟨codec', ?_⟩, hsighted, ?_⟩
  · rw [blockShapes, hindex]
    simp only [hdecode]
    show (settled (f.walk [] true top.location.fp []) >>= _) ({} : LongsCodec) = _
    rw [bind_ok (settled_ok hwalk)]
    rfl
  · rwa [List.flatMap_cons]

/-- A walk over everything visits these blocks, whatever the codec was used for before. -/
def Visits (f : FieldReader) (blocks : List (Nat × Block)) : Prop :=
  ∃ shapes, (∀ codec, ∃ codec', f.blockShapes codec = .ok shapes codec') ∧
    List.Forall₂ (fun (s : BlockShape) (x : Nat × Block) =>
      f.Decodes x.1 x.2 ∧ ∃ first, s = shape x.1 s.stem first x.2) shapes blocks

/-- How far the block at an offset reaches. -/
def extent (f : FieldReader) (fp : Nat) : Nat × Nat :=
  match f.block fp {} with
  | .ok b _ => (fp, b.stop)
  | .error .. => (fp, fp)

/-- A block that is decoded ends where its extent does. -/
theorem Decodes.extent_eq {fp : Nat} {b : Block} (h : f.Decodes fp b) :
    f.extent fp = (fp, b.stop) := by
  obtain ⟨codec', hblock⟩ := h.block_eq {}
  rw [extent, hblock]

/-- The blocks of a visit are decoded. -/
theorem Visits.decodes {blocks : List (Nat × Block)} (h : f.Visits blocks) :
    ∀ x ∈ blocks, f.Decodes x.1 x.2 := by
  obtain ⟨shapes, -, hblocks⟩ := h
  intro x hx
  obtain ⟨s, -, hdecodes, -⟩ := hblocks.exists_left hx
  exact hdecodes

/-- The blocks that start where extents do, and fill them, reach as far as these. -/
theorem extents_perm {blocks : List (Nat × Block)} {extents : List (Nat × Nat)}
    (hblocks : ∀ x ∈ blocks, f.Decodes x.1 x.2)
    (hfills : ∀ e ∈ extents, Block.Fills f.terms f.info.options.hasFreqs e)
    (hstarts : (blocks.map (·.1)).Perm (extents.map (·.1))) :
    (blocks.map fun x => (x.1, x.2.stop)).Perm extents := by
  have hreach : (blocks.map (·.1)).map f.extent = blocks.map fun x => (x.1, x.2.stop) := by
    rw [List.map_map]
    exact List.map_congr_left fun x hx => (hblocks x hx).extent_eq
  have hfill : (extents.map (·.1)).map f.extent = extents := by
    rw [List.map_map]
    conv_rhs => rw [← List.map_id extents]
    refine List.map_congr_left fun e he => ?_
    obtain ⟨b, codec', hblock, hstop⟩ := hfills e he {}
    have hdecodes : f.Decodes e.1 b := ⟨{}, codec', hblock⟩
    rw [Function.comp_apply, hdecodes.extent_eq, hstop]
    rfl
  rw [← hreach]
  conv_rhs => rw [← hfill]
  exact hstarts.map _

namespace Reads

variable {s : StoredField}

/-- **A walk over a stored field visits its blocks, which have all its terms.** -/
theorem exists_visits (h : f.Reads sizes s) (hcount : s.terms.length < 2 ^ 64) :
    ∃ blocks, f.Visits blocks ∧ (blocks.map (·.1)).Perm (Lexicon.offsets s.runs) ∧
      (blocks.map fun x => x.2.termCount).sum = f.summary.terms.toNat := by
  rw [h.summary]
  cases htree : s.tree with
  | none =>
    refine ⟨[], ⟨[], fun codec => ⟨codec, ?_⟩, .nil⟩, ?_, ?_⟩
    · rw [blockShapes, h.index, htree]
      rfl
    · rw [StoredField.runs, htree]
      exact .refl []
    · rw [StoredField.summary, htree]
      rfl
  | some tree =>
    obtain ⟨t, runs⟩ := tree
    have hshows := h.shows t runs htree
    obtain ⟨shapes, hwalk, hsighted, hshapes⟩ := hshows.tours h.rootCoded
    obtain ⟨t', -, hrooted⟩ := hshows.index
    obtain ⟨blocks, hblocks⟩ : ∃ blocks, List.Forall₂ (fun (s : BlockShape) (x : Nat × Block) =>
        f.Decodes x.1 x.2 ∧ ∃ first, s = shape x.1 s.stem first x.2) shapes blocks :=
      exists_forall₂ fun s hs => by
        obtain ⟨first, b, hdecodes, hshape⟩ := hsighted s hs
        exact ⟨(s.fp, b), hdecodes, first, hshape⟩
    have hsame : shapes.map (fun s => (s.fp, s.terms))
        = blocks.map fun x => (x.1, x.2.termCount) := by
      rw [← List.forall₂_eq_eq_eq, List.forall₂_map_left_iff, List.forall₂_map_right_iff]
      refine hblocks.imp fun s x hx => ?_
      obtain ⟨-, first, hshape⟩ := hx
      rw [hshape]
      rfl
    rw [hsame] at hshapes
    refine ⟨blocks, ⟨shapes, hwalk, hblocks⟩, ?_, ?_⟩
    · have hstarts := hshapes.map Prod.fst
      rw [List.map_map, List.map_map, List.map_flatMap] at hstarts
      rw [StoredField.runs, htree]
      exact hstarts
    · have hterms := (hshapes.map Prod.snd).sum_nat
      rw [List.map_map, List.map_map] at hterms
      rw [StoredField.summary, htree, UInt64.toNat_ofNat_of_lt' hcount, hrooted.length_terms]
      exact hterms

/-- The pieces of a stored field are those of blocks. -/
theorem pieces (h : f.Reads sizes s) (hsizes : sizes.Valid) {infos : List FieldInfo}
    (hreadable : s.Readable sizes infos) :
    ∀ r ∈ s.runs, ∀ p ∈ r.pieces, p.entries ≠ [] ∧ p.Storable s.hasFreqs := by
  intro r hr p hp
  rw [StoredField.runs] at hr
  cases htree : s.tree with
  | none =>
    rw [htree] at hr
    cases hr
  | some tree =>
    obtain ⟨t, runs⟩ := tree
    rw [htree] at hr
    obtain ⟨t', -, hrooted⟩ := (h.shows t runs htree).index
    obtain ⟨_, hstands, -, -⟩ := hrooted.exists_standsFor r hr
    exact ⟨hstands.sound.sliced.nonempty p hp,
      hrooted.storable hsizes.two_le hreadable.small hreadable.accepted r hr p hp⟩

end Reads

end FieldReader

/-! ## What was emitted for a segment -/

/-- **The blocks of fields that are all finished lie one after the other.** -/
theorem Adds.tiles {sizes : BlockSizes} {stream more : Bytes} {scripts : List FieldScript}
    {stored : List StoredField} (h : Adds sizes stream scripts stored more) :
    (∀ script ∈ scripts, script.finished = true) →
      (∀ x ∈ stored, ∀ r ∈ x.runs, ∀ p ∈ r.pieces, p.entries ≠ [] ∧ p.Storable x.hasFreqs) →
      (stream ++ more).length ≤ 2 ^ 64 → ∀ after : Bytes, ∃ extents : List (List (Nat × Nat)),
        Tiles stream.length extents.flatten (stream ++ more).length ∧
        List.Forall₂ (fun (x : StoredField) es => (es.map (·.1)).Perm (offsets x.runs) ∧
          ∀ e ∈ es, Block.Fills (stream ++ (more ++ after)) x.hasFreqs e) stored extents := by
  induction h with
  | nil stream =>
    intro _ _ _ after
    rw [List.append_nil]
    exact ⟨[], .nil _, .nil⟩
  | dropped dropped =>
    intro hall _ _ _
    rw [hall _ (List.mem_cons_self ..)] at dropped
    cases dropped
  | @finished stream more script scripts field stored items runs codec _ same perm emits _ ih =>
    intro hall hpieces hroom after
    obtain ⟨hfirst, hothers⟩ := List.forall_mem_cons.mp hpieces
    rw [← List.append_assoc] at hroom
    obtain ⟨extents, htiles, hextents⟩ :=
      ih (fun script hs => hall script (List.mem_cons_of_mem _ hs)) hothers hroom after
    have hfreqs : script.hasFreqs = field.hasFreqs := by
      rw [StoredField.hasFreqs, same.info]
      rfl
    have hruns : ∀ r ∈ runs, ∀ p ∈ r.pieces, p.entries ≠ [] ∧ p.Storable field.hasFreqs :=
      fun r hr => hfirst r (perm.mem_iff.mpr hr)
    obtain ⟨items', es, hitems, hposition, hstarts, htiles', hfills⟩ :=
      emits.occupies fun r hr p hp => (hruns r hr p hp).1
    rw [List.nil_append] at hitems
    subst hitems
    refine ⟨es :: extents, ?_, .cons ⟨?_, fun e he => ?_⟩ ?_⟩
    · rw [List.flatten_cons, ← List.append_assoc]
      rw [List.length_append] at htiles
      exact htiles'.append htiles
    · rw [hstarts, List.map_flatMap]
      exact (offsets_perm perm).symm
    · rw [List.append_assoc, ← hfreqs]
      refine hfills ?_ (fun p hp => ?_) stream (more ++ after) rfl e he
      · rw [List.length_append, List.length_append] at hroom
        exact Nat.le_trans (Nat.le_add_right ..) hroom
      · obtain ⟨r, hr, hp⟩ := List.mem_flatMap.mp hp
        exact hfreqs ▸ (hruns r hr p hp).2
    · simp only [List.append_assoc] at hextents ⊢
      exact hextents

/-- All readers of a segment have its stream of blocks. -/
theorem Reader.open_terms {streams : Streams Bytes} {segment : Segment} {infos : List FieldInfo}
    {r : Reader} (h : Reader.open streams segment infos = .ok r) :
    ∀ f ∈ r.fields, f.terms = streams.terms := by
  obtain ⟨⟨directory, index⟩, -, h⟩ := of_bind_eq_ok h
  obtain ⟨-, -, h⟩ := of_bind_eq_ok h
  obtain ⟨fields, hfields, h⟩ := of_bind_eq_ok h
  cases h
  intro f hf
  obtain ⟨summary, -, hload⟩ := (forall₂_of_mapM hfields).exists_left hf
  rw [loadField] at hload
  split at hload
  next => cases hload
  next =>
    split at hload
    next =>
      obtain ⟨t, -, hload⟩ := of_bind_eq_ok hload
      split at hload <;> cases hload
      rfl
    next =>
      cases hload
      rfl

namespace SegmentScript

variable {s : SegmentScript}

/-- The terms of a stored field are less than 2^64. -/
theorem Fits.stored_length_lt (h : s.Fits) {script : FieldScript} {stored : StoredField}
    (hscript : script ∈ s.finished) (hstored : script.StoredAs stored) :
    stored.terms.length < 2 ^ 64 := by
  have hmem : script ∈ s.fields := List.mem_of_mem_filter hscript
  have hacceptable := h.acceptable script hmem
  rw [hstored.terms]
  refine (hacceptable.room.kept script.hasFreqs).length_lt ?_
  rw [← List.pairwise_map (f := Prod.fst)]
  show (Terms.keys (script.terms.kept script.hasFreqs)).Pairwise (· < ·)
  rw [Terms.keys_kept]
  exact hacceptable.increasing

/-- A walk over a field visits its blocks, each of which reaches as far as it was emitted. -/
theorem Fits.exists_visits (h : s.Fits) {script : FieldScript} {stored : StoredField}
    {f : FieldReader} {extents : List (Nat × Nat)} (hscript : script ∈ s.finished)
    (hstored : script.StoredAs stored) (hreads : f.Reads s.sizes stored)
    (hstarts : (extents.map (·.1)).Perm (offsets stored.runs))
    (hfills : ∀ e ∈ extents, Block.Fills f.terms stored.hasFreqs e) :
    ∃ blocks, (f.Visits blocks ∧
        (blocks.map fun x => x.2.termCount).sum = f.summary.terms.toNat) ∧
      (blocks.map fun x => (x.1, x.2.stop)).Perm extents := by
  obtain ⟨blocks, hvisits, hoffsets, hcount⟩ :=
    hreads.exists_visits (h.stored_length_lt hscript hstored)
  have hfreqs : stored.hasFreqs = f.info.options.hasFreqs := by
    rw [hreads.info]
    rfl
  rw [hfreqs] at hfills
  exact ⟨blocks, ⟨hvisits, hcount⟩, FieldReader.extents_perm hvisits.decodes hfills
    (hoffsets.trans hstarts.symm)⟩

/-- **No block is lost, met twice or overlapped.** If every field that was opened was finished, the
blocks that are visited from the roots of all fields start at different places, do not overlap, and
reach together from the end of the header to the start of the footer. Each sub-block starts before
the block that names it, and the blocks of a field have as many terms as it is said to have. -/
theorem blocks_cover (s : SegmentScript) (h : s.Fits) (hall : ∀ f ∈ s.fields, f.finished = true) :
    ∃ streams r visited version start rest stop, s.streams = .ok streams ∧
      Reader.open streams s.segment s.infos = .ok r ∧
      (Frame.readHeader (Streams.expectation s.segment Streams.codecs.terms)).run streams.terms
        = .ok (version, ⟨start, rest⟩) ∧
      Frame.checkFooter streams.terms (Streams.names s.segment).terms = .ok stop ∧
      Partitions (visited.flatten.map fun x => (x.1, x.2.stop)) start stop ∧
      (∀ x ∈ visited.flatten, ∀ suffix child, .block suffix child ∈ x.2.entries → child < x.1) ∧
      List.Forall₂ (fun (f : FieldReader) blocks => f.Visits blocks ∧
        (blocks.map fun x => x.2.termCount).sum = f.summary.terms.toNat) r.fields visited := by
  obtain ⟨streams, r, stored, blocks, hstreams, hopen, hterms, hlong, hadds, hreads⟩ :=
    h.opens_whole
  have hsizes := BlockSizes.valid_of_check h.sizes
  have hcodec : (Bytes.ofString Streams.codecs.terms).length < 2 ^ 32 := by decide +kernel
  have hstored : List.Forall₂ FieldScript.StoredAs s.finished stored := hadds.storedAs
  obtain ⟨footer, hframed⟩ :=
    Frame.framed_eq (headerBytes s.segment Streams.codecs.terms ++ blocks)
  have hbytes : streams.terms
      = headerBytes s.segment Streams.codecs.terms ++ (blocks ++ footer) := by
    rw [hterms, hframed, List.append_assoc]
  have hroom : (headerBytes s.segment Streams.codecs.terms ++ blocks).length ≤ 2 ^ 64 := by
    rw [hterms, Frame.length_framed] at hlong
    omega
  -- what was emitted for all fields lies back to back, and the reader has it
  have hpieces : ∀ x ∈ stored, ∀ r ∈ x.runs, ∀ p ∈ r.pieces,
      p.entries ≠ [] ∧ p.Storable x.hasFreqs := by
    intro x hx
    obtain ⟨script, hscript, hsame⟩ := hstored.exists_left hx
    obtain ⟨f, hf, hread⟩ := hreads.flip.exists_left hx
    exact hread.pieces hsizes (h.storable.readable hscript hsame)
  obtain ⟨extents, htiles, hextents⟩ := hadds.tiles hall hpieces hroom footer
  rw [← hbytes] at hextents
  have hfields := (List.forall₂_and_left ..).mpr ⟨Reader.open_terms hopen,
    ((List.forall₂_and_left ..).mpr ⟨fun x hx => hstored.exists_left hx, hreads⟩).flip⟩
  obtain ⟨visited, hvisited, hperm⟩ := List.Forall₂.exists_between
    (hfields.through hextents fun f x es hf hx => by
      obtain ⟨hstream, ⟨script, hscript, hsame⟩, hread⟩ := hf
      exact h.exists_visits hscript hsame hread hx.1 (hstream ▸ hx.2))
  have hcover : (visited.flatten.map fun x => (x.1, x.2.stop)).Perm extents.flatten := by
    rw [List.map_flatten]
    exact .flatten_congr (List.forall₂_map_left_iff.mpr hperm)
  refine ⟨streams, r, visited, Frame.version.toNat, _, blocks ++ footer, _, hstreams, hopen,
    ?header, ?footer, htiles.partitions.perm hcover.symm, ?before, hvisited⟩
  case header =>
    rw [hbytes]
    exact (Reader.takes_header Streams.codecs.terms hcodec h.suffix).run (blocks ++ footer)
  case footer =>
    rw [hterms]
    exact Frame.checkFooter_framed ..
  case before =>
    intro x hx suffix child hentry
    obtain ⟨found, hfound, hx⟩ := List.mem_flatten.mp hx
    obtain ⟨f, -, hvisits, -⟩ := hvisited.exists_left hfound
    obtain ⟨_, _, hblock⟩ := hvisits.decodes x hx
    exact Block.lt_of_mem_entries hblock hentry

/-- Two fields that are finished, the second with floor siblings. -/
def rowed : SegmentScript where
  segment := { name := "_0", id := default }
  sizes := ⟨2, 4⟩
  fields :=
    [{ info := ⟨"title", 1, .docs⟩
       steps := [.write [97] ⟨⟨1, 1⟩, []⟩, .write [98, 97] ⟨⟨2, 2⟩, [3]⟩, .record [1, 2]] },
     { info := ⟨"body", 2, .freqs⟩
       steps := [97, 98, 99, 100, 101, 102].map fun b => .write [b] ⟨⟨1, 1⟩, []⟩ }]

theorem fits_rowed : rowed.Fits :=
  fits_of_light rfl (by decide) (by decide) (by decide) (by decide) (by decide) (by decide +kernel)
    (by decide +kernel)

/-- The blocks of both fields cover the stream, floor siblings among them. -/
theorem blocks_cover_rowed : rowed.Fits ∧ (∀ f ∈ rowed.fields, f.finished = true) ∧
    ∃ streams r visited start stop, rowed.streams = .ok streams ∧
      Reader.open streams rowed.segment rowed.infos = .ok r ∧
      Partitions (visited.flatten.map fun x => (x.1, x.2.stop)) start stop ∧
      List.Forall₂ (fun (f : FieldReader) blocks => f.Visits blocks ∧
        (blocks.map fun x => x.2.termCount).sum = f.summary.terms.toNat) r.fields visited := by
  have hall : ∀ f ∈ rowed.fields, f.finished = true := by decide
  obtain ⟨streams, r, visited, _, start, _, stop, hstreams, hopen, -, -, hcover, -, hvisited⟩ :=
    blocks_cover rowed fits_rowed hall
  exact ⟨fits_rowed, hall, streams, r, visited, start, stop, hstreams, hopen, hcover, hvisited⟩

end SegmentScript

end Lexicon

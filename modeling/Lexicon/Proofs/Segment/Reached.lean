import Lexicon.Proofs.Segment.Pending
import Lexicon.Proofs.Segment.RoundTrip
import Lexicon.Proofs.Segment.Walks
import Lexicon.Proofs.Transducer.Calls

/-!
# The index and the blocks agree

A field is stored twice. Its blocks lead from one run to those below it, each sub-block going back
from the block that names it. Its index maps the prefix of every run to where the blocks of the run
are. Terms are listed by the blocks and looked up by the index, so the two have to tell the same.

`Reached f p blocks` is what the blocks tell: from the root code of the field on, these are the
blocks of a run with prefix `p`. `Location.Locates` compares a run with what the index says of it,
and `Indexed` says that they agree everywhere.

> **`FieldWriter.finish_indexed`** — every field with terms that is finished is indexed, whatever
> comes before and after it in the streams;
> **`SegmentScript.open_indexed`** — and so are the fields of a segment that is opened.
-/

namespace Lexicon

/-! ## What a reader sees of a block -/

namespace BlockEntry

def suffix : BlockEntry → Bytes
  | term suffix _ => suffix
  | block suffix _ => suffix

def isTerm : BlockEntry → Bool
  | term .. => true
  | block .. => false

end BlockEntry

namespace Block

def hasTerms (b : Block) : Bool := b.entries.any BlockEntry.isTerm

/-- The byte after the prefix of the run, of the first entry. -/
def lead (b : Block) : Option UInt8 := b.entries.head?.bind (·.suffix.head?)

end Block

theorem Entry.isTerm_seen (depth : Nat) (hasFreqs : Bool) (e : Entry) :
    (e.seen depth hasFreqs).isTerm = e.isTerm := by
  cases e <;> rfl

theorem Entry.head?_suffix_seen (depth : Nat) (hasFreqs : Bool) (e : Entry) :
    (e.seen depth hasFreqs).suffix.head? = e.lead depth := by
  cases e <;> exact List.head?_drop

theorem Entry.seen_eq_block {depth : Nat} {hasFreqs : Bool} {e : Entry} {suffix : Bytes} {fp : Nat}
    (h : e.seen depth hasFreqs = .block suffix fp) :
    ∃ b, e = .block b ∧ b.stem.drop depth = suffix ∧ b.fp = fp := by
  cases e with
  | term => cases h
  | block b =>
    obtain ⟨hsuffix, hfp⟩ := BlockEntry.block.inj h
    exact ⟨b, rfl, hsuffix, hfp⟩

/-- The piece of a run whose prefix has this length, as it is read with its offset. -/
structure Piece.ReadAs (depth : Nat) (hasFreqs : Bool) (p : Piece) (x : Nat × Block) : Prop where
  fp : x.1 = p.fp
  entries : x.2.entries = p.entries.map (Entry.seen depth hasFreqs)

namespace Piece.ReadAs

variable {depth : Nat} {hasFreqs : Bool} {p : Piece} {x : Nat × Block}

theorem hasTerms (h : p.ReadAs depth hasFreqs x) : x.2.hasTerms = p.hasTerms := by
  rw [Block.hasTerms, h.entries, List.any_map, Piece.hasTerms]
  exact congrArg p.entries.any (funext fun e => e.isTerm_seen depth hasFreqs)

theorem lead (h : p.ReadAs depth hasFreqs x) : x.2.lead = p.lead depth := by
  rw [Block.lead, h.entries, Piece.lead]
  cases p.entries with
  | nil => rfl
  | cons e rest => exact e.head?_suffix_seen depth hasFreqs

end Piece.ReadAs

/-! ## Where the index says the blocks of a run are -/

/-- The location is that of the run of these blocks, each with its offset. -/
structure Location.Locates (location : Location) (blocks : List (Nat × Block)) : Prop where
  first : ∃ fp b rest, blocks = (fp, b) :: rest ∧ location.fp = fp ∧ location.hasTerms = b.hasTerms
  isFloor : location.isFloor = true ↔ 1 < blocks.length
  /-- There is a sibling for each block but the first. -/
  siblings : List.Forall₂ (fun (s : Sibling) (x : Nat × Block) =>
    s.fp = x.1 ∧ s.hasTerms = x.2.hasTerms ∧ x.2.lead = some s.lead) location.siblings blocks.tail
  leads : location.siblings.Pairwise (·.lead < ·.lead)
  inOrder : blocks.Pairwise (·.1 < ·.1)

/-- **The location of a run locates its blocks.** -/
theorem location_locates {depth : Nat} {hasFreqs : Bool} {entries : List Entry}
    {pieces : List Piece} {blocks : List (Nat × Block)} (hsliced : Sliced depth entries pieces)
    (hne : pieces ≠ []) (hfps : pieces.Pairwise (·.fp < ·.fp))
    (h : List.Forall₂ (Piece.ReadAs depth hasFreqs) pieces blocks) :
    (Piece.location depth entries.length pieces).Locates blocks := by
  have horder : blocks.map (·.1) = pieces.map (·.fp) := by
    rw [← List.forall₂_eq_eq_eq, List.forall₂_map_left_iff, List.forall₂_map_right_iff]
    exact h.flip.imp fun _ _ hread => hread.fp
  cases h with
  | nil => exact absurd rfl hne
  | @cons p x pieces blocks hfirst hrest =>
    have hleads := hsliced.exists_lead
    refine ⟨⟨x.1, x.2, blocks, rfl, hfirst.fp.symm, hfirst.hasTerms.symm⟩, ?isFloor, ?siblings,
      ?leads, ?inOrder⟩
    case isFloor =>
      rw [Piece.location, hsliced.floor, List.length_cons, ← hrest.length_eq]
      cases pieces <;> simp
    case siblings =>
      rw [Piece.location, List.tail_cons, List.forall₂_map_left_iff]
      -- a piece that is not the first begins with a byte, which its block shows
      have hboth := (List.forall₂_and_left ..).mpr ⟨hleads, hrest⟩
      refine hboth.imp fun q x hq => ?_
      obtain ⟨⟨label, hlabel⟩, hread⟩ := hq
      refine ⟨hread.fp.symm, hread.hasTerms.symm, ?_⟩
      rw [hread.lead, Piece.sibling, hlabel]
      rfl
    case leads =>
      rw [Piece.location, List.pairwise_map]
      refine (List.pairwise_cons.mp hsliced.leads).2.imp_of_mem fun {q q'} hq hq' hlt => ?_
      obtain ⟨label, hlabel⟩ := hleads q hq
      obtain ⟨label', hlabel'⟩ := hleads q' hq'
      rw [hlabel, hlabel'] at hlt
      rw [Piece.sibling, Piece.sibling, hlabel, hlabel', UInt8.lt_iff_toNat_lt]
      exact Nat.lt_of_succ_lt_succ hlt
    case inOrder =>
      rw [← List.pairwise_map (f := Prod.fst), horder, List.pairwise_map]
      exact hfps

namespace FieldReader

/-! ## The runs that are reached -/

/-- These are the blocks of a run from the one at an offset on, each with its own: every block but
the last is followed by the one where it ends. -/
inductive RunAt (f : FieldReader) : Nat → List (Nat × Block) → Prop
  | last {fp : Nat} {b : Block} (block : f.Decodes fp b) (last : b.isLast = true) :
      RunAt f fp [(fp, b)]
  | more {fp : Nat} {b : Block} {rest : List (Nat × Block)} (block : f.Decodes fp b)
      (more : b.isLast = false) (others : RunAt f b.stop rest) : RunAt f fp ((fp, b) :: rest)

/-- The blocks lead from the root code to a run with this prefix, which has these blocks. -/
inductive Reached (f : FieldReader) : Bytes → List (Nat × Block) → Prop
  | root {location : Location} {blocks : List (Nat × Block)}
      (root : Location.decode f.summary.rootCode = .ok location)
      (run : f.RunAt location.fp blocks) : Reached f [] blocks
  | down {p : Bytes} {blocks : List (Nat × Block)} {x : Nat × Block} {suffix : Bytes}
      {child : Nat} {inside : List (Nat × Block)} (above : Reached f p blocks) (block : x ∈ blocks)
      (entry : .block suffix child ∈ x.2.entries) (run : f.RunAt child inside) :
      Reached f (p ++ suffix) inside

/-- The index of the field is the map of these pairs, and it agrees with the blocks. -/
structure Indexed (f : FieldReader) (t : Transducer) (pairs : Pairs) : Prop where
  loaded : f.index = some t
  maps : t.Maps pairs
  root : ([], f.summary.rootCode) ∈ pairs
  /-- Every sub-block that is reached leads to a run. -/
  leads : ∀ p blocks x suffix child, f.Reached p blocks → x ∈ blocks →
    .block suffix child ∈ x.2.entries → ∃ inside, f.RunAt child inside
  keys : ∀ p, p ∈ pairs.map (·.1) ↔ ∃ blocks, f.Reached p blocks
  outputs : ∀ p output blocks, (p, output) ∈ pairs → f.Reached p blocks →
    ∃ location, Location.decode output = .ok location ∧ location.Locates blocks
  /-- There are no more keys than blocks that start at different places. -/
  few : ∃ places : List Nat, places.Nodup ∧
    (∀ fp, fp ∈ places ↔ ∃ p blocks b, f.Reached p blocks ∧ (fp, b) ∈ blocks) ∧
    pairs.length ≤ places.length

variable {f : FieldReader} {sizes : BlockSizes} {terms : Terms} {runs : List Run}

theorem RunAt.unique {fp : Nat} {blocks blocks' : List (Nat × Block)} (h : f.RunAt fp blocks) :
    f.RunAt fp blocks' → blocks = blocks' := by
  induction h generalizing blocks' with
  | last block last =>
    intro h'
    cases h' with
    | last block' => rw [block.unique block']
    | more block' more' =>
      rw [block.unique block', more'] at last
      cases last
  | more block more _ ih =>
    intro h'
    cases h' with
    | last block' last' =>
      rw [block.unique block', last'] at more
      cases more
    | more block' _ others' =>
      obtain rfl := block.unique block'
      rw [ih others']

/-- The blocks are those of a run, as it was written. -/
def Shown (f : FieldReader) (r : Run) (blocks : List (Nat × Block)) : Prop :=
  List.Forall₂ (Piece.ReadAs r.stem.length f.info.options.hasFreqs) r.pieces blocks

/-- A chain of pieces is read as a run. -/
theorem exists_runAt {depth fp : Nat} {pieces : List Piece}
    (h : Chain f.terms f.info.options.hasFreqs depth fp pieces) :
    ∃ blocks, f.RunAt fp blocks ∧
      List.Forall₂ (Piece.ReadAs depth f.info.options.hasFreqs) pieces blocks := by
  induction h with
  | @last fp stop entries reads =>
    obtain ⟨b, codec', hblock, hlast, hentries, -⟩ := reads {}
    exact ⟨[(fp, b)], .last ⟨{}, codec', hblock⟩ hlast, .cons ⟨rfl, hentries⟩ .nil⟩
  | @more fp stop entries pieces reads _ ih =>
    obtain ⟨b, codec', hblock, hmore, hentries, hstop⟩ := reads {}
    obtain ⟨rest, hrun, hread⟩ := ih
    rw [← hstop] at hrun
    exact ⟨(fp, b) :: rest, .more ⟨{}, codec', hblock⟩ hmore hrun, .cons ⟨rfl, hentries⟩ hread⟩

/-- A run in the stream is there from its first block on. -/
theorem Held.exists_runAt {r : Run} (h : Held f.terms f.info.options.hasFreqs r) :
    ∃ blocks, f.RunAt r.fp blocks ∧ f.Shown r blocks :=
  FieldReader.exists_runAt h.chain

/-- The run at the offset of a run that was written is that run. -/
theorem Held.shown {r : Run} {blocks : List (Nat × Block)}
    (h : Held f.terms f.info.options.hasFreqs r) (hrun : f.RunAt r.fp blocks) :
    f.Shown r blocks := by
  obtain ⟨blocks', hrun', hshown⟩ := h.exists_runAt
  rwa [hrun.unique hrun']

/-- A sub-block among what is read of a run is one of its entries. -/
theorem Shown.exists_block {r : Run} {blocks : List (Nat × Block)} (h : f.Shown r blocks)
    {x : Nat × Block} (hx : x ∈ blocks) {suffix : Bytes} {child : Nat}
    (hentry : .block suffix child ∈ x.2.entries) :
    ∃ b, .block b ∈ r.entries ∧ b.stem.drop r.stem.length = suffix ∧ b.fp = child := by
  obtain ⟨p, hp, hread⟩ := h.exists_left hx
  rw [hread.entries] at hentry
  obtain ⟨e, he, hseen⟩ := List.mem_map.mp hentry
  obtain ⟨b, rfl, hsuffix, hfp⟩ := Entry.seen_eq_block hseen
  exact ⟨b, List.mem_flatMap.mpr ⟨p, hp, he⟩, hsuffix, hfp⟩

/-- And a sub-block among the entries of a run is read. -/
theorem Shown.exists_entry {r : Run} {blocks : List (Nat × Block)} (h : f.Shown r blocks)
    {b : SubBlock} (hb : .block b ∈ r.entries) :
    ∃ x ∈ blocks, .block (b.stem.drop r.stem.length) b.fp ∈ x.2.entries := by
  obtain ⟨p, hp, hb⟩ := List.mem_flatMap.mp hb
  obtain ⟨x, hx, hread⟩ := h.flip.exists_left hp
  refine ⟨x, hx, ?_⟩
  rw [hread.entries]
  exact List.mem_map.mpr ⟨.block b, hb, rfl⟩

/-- Where blocks lead from a run that was written, there is another one. -/
theorem Shows.exists_below (h : f.Shows sizes terms runs) {r : Run} (hr : r ∈ runs)
    {blocks : List (Nat × Block)} (hshown : f.Shown r blocks) {x : Nat × Block} (hx : x ∈ blocks)
    {suffix : Bytes} {child : Nat} (hentry : .block suffix child ∈ x.2.entries) :
    ∃ r' ∈ runs, r'.stem = r.stem ++ suffix ∧ r'.fp = child := by
  obtain ⟨t, -, hrooted⟩ := h.index
  obtain ⟨below, hstands, -, hsub⟩ := hrooted.exists_standsFor r hr
  obtain ⟨b, hb, rfl, rfl⟩ := hshown.exists_block hx hentry
  obtain ⟨r', hr', hstem, hfp⟩ := hstands.stands.exists_run hb
  have hpre : r.stem <+: b.stem := (hstands.sound.within _ hb).prefix_key
  exact ⟨r', hsub hr', hstem.trans (append_drop hpre).symm, hfp⟩

/-- The blocks of a run that is reached lead to the runs below. -/
theorem Reached.enter {r : Run} {blocks : List (Nat × Block)} (h : f.Reached r.stem blocks)
    (hshown : f.Shown r blocks) (hstem : ∀ e ∈ r.entries, r.stem <+: e.key) {b : SubBlock}
    (hb : .block b ∈ r.entries) {inside : List (Nat × Block)} (hrun : f.RunAt b.fp inside) :
    f.Reached b.stem inside := by
  obtain ⟨x, hx, hentry⟩ := hshown.exists_entry hb
  have hpre : r.stem <+: b.stem := hstem _ hb
  have hdown := h.down hx hentry hrun
  rwa [append_drop hpre] at hdown

/-- The runs below entries are reached, if the first blocks of the entries are. -/
theorem reached_of_stands {entries : List Entry}
    (h : Stands sizes (Held f.terms f.info.options.hasFreqs) entries terms runs) :
    (∀ b, .block b ∈ entries → ∀ blocks, f.RunAt b.fp blocks → f.Reached b.stem blocks) →
      ∀ r ∈ runs, ∃ blocks, f.Reached r.stem blocks ∧ f.Shown r blocks := by
  induction h with
  | nil => simp
  | term _ ih => exact fun hentries => ih fun b hb => hentries b (List.mem_cons_of_mem _ hb)
  | @block b r inside terms rest below runs stem fp _ sound here _ _ _ ihInner ihOthers =>
    intro hentries
    -- the run of the first block is entered, and those below it through its blocks
    obtain ⟨blocks, hrun, hshown⟩ := here.exists_runAt
    have hreached : f.Reached r.stem blocks := by
      rw [← stem]
      exact hentries b (List.mem_cons_self ..) blocks (fp ▸ hrun)
    refine List.forall_mem_append.mpr ⟨List.forall_mem_cons.mpr ⟨⟨blocks, hreached, hshown⟩, ?_⟩,
      ihOthers fun b hb => hentries b (List.mem_cons_of_mem _ hb)⟩
    exact ihInner fun b' hb' _ hrun' =>
      hreached.enter hshown (fun e he => (sound.within e he).prefix_key) hb' hrun'

/-! ## The index agrees -/

/-- The root code of the field is what its index puts out for no byte. -/
def RootCoded (f : FieldReader) : Prop :=
  ∀ t, f.index = some t → t.emptyOutput = some f.summary.rootCode

/-- The root code locates the run of all terms. -/
theorem Shows.exists_top (h : f.Shows sizes terms runs) (hroot : f.RootCoded) :
    ∃ top below, runs = top :: below ∧ top.stem = [] ∧
      f.summary.rootCode = top.location.encode ∧
      Location.decode f.summary.rootCode = .ok top.location := by
  obtain ⟨t, hindex, top, below, rfl, hstem, hsound, hheld, -, hdenotes⟩ := h.index
  have hmem : ([], top.location.encode) ∈ (top :: below).map Run.pair := by
    rw [← hstem]
    exact List.mem_cons_self ..
  have hcode := hroot t hindex
  rw [hdenotes.emptyOutput_eq hmem] at hcode
  refine ⟨top, below, rfl, hstem, (Option.some.inj hcode).symm, ?_⟩
  rw [← Option.some.inj hcode]
  exact decode_location hsound hheld h.room

/-- **What is reached is a run that was written.** -/
theorem Shows.exists_run (h : f.Shows sizes terms runs) (hroot : f.RootCoded) {p : Bytes}
    {blocks : List (Nat × Block)} (hreached : f.Reached p blocks) :
    ∃ r ∈ runs, r.stem = p ∧ f.Shown r blocks := by
  obtain ⟨t, -, hrooted⟩ := h.index
  induction hreached with
  | @root location blocks root run =>
    obtain ⟨top, below, hruns, hstem, -, hdecode⟩ := h.exists_top hroot
    obtain rfl := Except.ok.inj (hdecode.symm.trans root)
    have htop : top ∈ runs := hruns ▸ List.mem_cons_self ..
    obtain ⟨_, ⟨-, hheld, -⟩, -⟩ := hrooted.exists_standsFor top htop
    rw [top.location_fp] at run
    exact ⟨top, htop, hstem, hheld.shown run⟩
  | down _ block entry run ih =>
    obtain ⟨r, hr, rfl, hshown⟩ := ih
    obtain ⟨r', hr', hstem', rfl⟩ := h.exists_below hr hshown block entry
    obtain ⟨_, ⟨-, hheld, -⟩, -⟩ := hrooted.exists_standsFor r' hr'
    exact ⟨r', hr', hstem', hheld.shown run⟩

/-- **Every run that was written is reached.** -/
theorem Shows.reached (h : f.Shows sizes terms runs) (hroot : f.RootCoded) :
    ∀ r ∈ runs, ∃ blocks, f.Reached r.stem blocks ∧ f.Shown r blocks := by
  obtain ⟨top, below, rfl, hstem, -, hdecode⟩ := h.exists_top hroot
  obtain ⟨t, -, top', below', heq, -, hsound, hheld, hstands, -⟩ := h.index
  obtain ⟨rfl, rfl⟩ := List.cons.inj heq
  obtain ⟨blocks, hrun, hshown⟩ := hheld.exists_runAt
  have hreached : f.Reached top.stem blocks := by
    rw [hstem]
    refine .root hdecode ?_
    rwa [top.location_fp]
  exact List.forall_mem_cons.mpr ⟨⟨blocks, hreached, hshown⟩, reached_of_stands hstands
    fun b hb _ hinside =>
      hreached.enter hshown (fun e he => (hsound.within e he).prefix_key) hb hinside⟩

/-- The prefixes of the runs are those that are reached. -/
theorem Shows.mem_keys_iff (h : f.Shows sizes terms runs) (hroot : f.RootCoded) (p : Bytes) :
    p ∈ (runs.map Run.pair).map (·.1) ↔ ∃ blocks, f.Reached p blocks := by
  rw [List.map_map, List.mem_map]
  constructor
  · rintro ⟨r, hr, rfl⟩
    obtain ⟨blocks, hreached, -⟩ := h.reached hroot r hr
    exact ⟨blocks, hreached⟩
  · rintro ⟨blocks, hreached⟩
    obtain ⟨r, hr, hstem, -⟩ := h.exists_run hroot hreached
    exact ⟨r, hr, hstem⟩

/-- What is said of a prefix locates the blocks that are reached. -/
theorem Shows.exists_locates (h : f.Shows sizes terms runs) (hroot : f.RootCoded)
    {p output : Bytes} {blocks : List (Nat × Block)} (hpair : (p, output) ∈ runs.map Run.pair)
    (hreached : f.Reached p blocks) :
    ∃ location, Location.decode output = .ok location ∧ location.Locates blocks := by
  obtain ⟨t, -, hrooted⟩ := h.index
  obtain ⟨r, hr, hpair⟩ := List.mem_map.mp hpair
  obtain ⟨rfl, rfl⟩ := Prod.mk.inj hpair
  obtain ⟨r', hr', hsame, hshown⟩ := h.exists_run hroot hreached
  -- No two runs have the same prefix.
  have hnodup : (runs.map Run.stem).Nodup :=
    List.pairwise_map.mpr (hrooted.increasing_runs.imp Bytes.ne_of_lt)
  obtain rfl : r' = r := List.inj_on_of_nodup_map hnodup hr' hr hsame
  obtain ⟨_, ⟨hsound, hheld, -⟩, -⟩ := hrooted.exists_standsFor r' hr'
  exact ⟨r'.location, decode_location hsound hheld h.room,
    location_locates hsound.sliced hsound.nonempty hsound.fps hshown⟩

/-- The places of the blocks that were written are those of the blocks that are reached. -/
theorem Shows.mem_offsets_iff (h : f.Shows sizes terms runs) (hroot : f.RootCoded) (fp : Nat) :
    fp ∈ Lexicon.offsets runs ↔ ∃ p blocks b, f.Reached p blocks ∧ (fp, b) ∈ blocks := by
  rw [mem_offsets]
  constructor
  · rintro ⟨r, hr, q, hq, rfl⟩
    obtain ⟨blocks, hreached, hshown⟩ := h.reached hroot r hr
    obtain ⟨x, hx, hread⟩ := hshown.flip.exists_left hq
    exact ⟨r.stem, blocks, x.2, hreached, hread.fp ▸ hx⟩
  · rintro ⟨p, blocks, b, hreached, hb⟩
    obtain ⟨r, hr, -, hshown⟩ := h.exists_run hroot hreached
    obtain ⟨q, hq, hread⟩ := hshown.exists_left hb
    exact ⟨r, hr, q, hq, hread.fp.symm⟩

/-- **The index agrees with the blocks**, if the root code is what it puts out for no byte. -/
theorem Shows.indexed (h : f.Shows sizes terms runs) (hroot : f.RootCoded) {t : Transducer}
    (hindex : f.index = some t) : f.Indexed t (runs.map Run.pair) := by
  obtain ⟨top, below, hruns, hstem, hcode, -⟩ := h.exists_top hroot
  obtain ⟨t', hindex', hrooted⟩ := h.index
  obtain rfl := Option.some.inj (hindex.symm.trans hindex')
  obtain ⟨-, -, -, -, -, -, -, hdenotes⟩ := id hrooted
  refine ⟨hindex, hdenotes.maps ?increasing, ?root,
    fun p blocks x suffix child hreached hx hentry => ?leads, h.mem_keys_iff hroot,
    fun p output blocks => h.exists_locates hroot, Lexicon.offsets runs, h.offsets,
    h.mem_offsets_iff hroot, ?few⟩
  case increasing =>
    rw [Pairs.Increasing, List.pairwise_map]
    exact hrooted.increasing_runs
  case root =>
    rw [hruns, hcode, ← hstem]
    exact List.mem_cons_self ..
  case leads =>
    obtain ⟨r, hr, rfl, hshown⟩ := h.exists_run hroot hreached
    obtain ⟨r', hr', -, rfl⟩ := h.exists_below hr hshown hx hentry
    obtain ⟨_, ⟨-, hheld, -⟩, -⟩ := hrooted.exists_standsFor r' hr'
    obtain ⟨inside, hinside, -⟩ := hheld.exists_runAt
    exact ⟨inside, hinside⟩
  case few =>
    rw [List.length_map, length_offsets]
    exact hrooted.length_le_blockCount

/-! ## Fields that were written -/

namespace Reads

variable {s : StoredField}

theorem rootCoded (h : f.Reads sizes s) : f.RootCoded := by
  intro t hindex
  rw [h.index, Option.map_eq_some_iff] at hindex
  obtain ⟨⟨t, runs⟩, htree, rfl⟩ := hindex
  obtain ⟨t', hindex, hrooted⟩ := (h.shows t runs htree).index
  rw [h.index, htree] at hindex
  obtain rfl : t = t' := Option.some.inj hindex
  rw [h.summary]
  exact StoredField.emptyOutput_eq htree hrooted

/-- **The index of a stored field agrees with its blocks.** -/
theorem exists_indexed (h : f.Reads sizes s) (hne : s.terms ≠ []) :
    ∃ t pairs, f.Indexed t pairs := by
  cases htree : s.tree with
  | none => exact absurd (h.empty htree) hne
  | some tree =>
    obtain ⟨t, runs⟩ := tree
    have hindex : f.index = some t := by
      rw [h.index, htree]
      rfl
    exact ⟨t, runs.map Run.pair, (h.shows t runs htree).indexed h.rootCoded hindex⟩

end Reads

end FieldReader

namespace FieldWriter

variable {w : Writer Memory} {stream index directory : Bytes}

/-- **Every field with terms is indexed**: a field may be written to in any way, whatever is refused
and whatever is in the streams already. It can be finished, and then its index is loaded and agrees
with its blocks, whatever comes after it. -/
theorem finish_indexed (hsizes : w.sizes.check = .ok ()) (hw : w.Holds stream index directory)
    (info : FieldInfo) (writes : Terms) (docs : DocList) (hne : accepted info writes ≠ [])
    (hroom : Room (accepted info writes)) (hsmall : (accepted info writes).Small w.sizes) :
    ∃ (f : FieldWriter) (w' : Writer Memory) (summary : FieldSummary) (w'' : Writer Memory)
      (blocks indexes : Bytes), attempts { info } w writes = (verdicts info writes, f, w') ∧
      (f.record docs).finish w' = .ok summary w'' ∧
      w''.Holds (stream ++ blocks) (index ++ indexes) directory ∧
      ∀ (moreBlocks moreIndexes : Bytes) (infos : List FieldInfo),
        (stream ++ blocks ++ moreBlocks).length ≤ 2 ^ 62 →
        (index ++ indexes ++ moreIndexes).length < 2 ^ 64 →
        infos.find? (·.number = info.number) = some info →
        ∃ reader t pairs, Reader.loadField (stream ++ blocks ++ moreBlocks)
            (index ++ indexes ++ moreIndexes) infos summary = .ok reader ∧
          reader.Indexed t pairs := by
  have hvalid := BlockSizes.valid_of_check hsizes
  obtain ⟨f, w', items, new, hattempts, hwrote, rfl, hinv⟩ :=
    attempts_spec hvalid writes (inv_new hvalid info stream) hw rfl hroom
  obtain ⟨w₂, items', new', hwrote', -, hfinished⟩ :=
    finish_spec hvalid (hinv.record docs) (hwrote.holds hw) hwrote.sizes_eq
  obtain ⟨s, out, hwritten, hfinish⟩ := hfinished hroom
  -- the blocks of the writes and those of the end are one row, as the reader will have them
  have hall := (hwrote.trans hwrote').holds hw
  have hinside := hwritten.inside
  rw [List.append_assoc, ← Item.encodeAll_append] at hinside
  refine ⟨f, w', s.summary, _, Item.encodeAll (items ++ items'), s.indexBytes, hattempts, hfinish,
    ⟨hall.terms, hwritten.holds, hall.directory, hall.sound, hall.unclosed⟩, ?_⟩
  intro moreBlocks moreIndexes infos hstream hindex hknown
  have hinfo : s.info = f.info := hwritten.info
  have hterms : s.terms = accepted f.info writes := hwritten.terms
  obtain ⟨reader, hload, hreads⟩ := Reader.loadField_spec hvalid
    (hinside.mono [] moreIndexes) (hinfo ▸ hknown)
    (by
      rw [hterms, StoredField.hasFreqs, hinfo]
      exact Accepted.acceptedFrom writes (by simp [Accepted]))
    (hterms ▸ hsmall) moreBlocks (by rwa [List.append_nil]) hindex
  rw [List.append_nil] at hload
  obtain ⟨t, pairs, hindexed⟩ := hreads.exists_indexed (hterms ▸ hne)
  exact ⟨reader, t, pairs, hload, hindexed⟩

/-- The terms `a` to `f`, with `a` after `c` again. -/
def broad : Terms := [97, 98, 99, 97, 100, 101, 102].map fun b => ([b], ⟨⟨1, 1⟩, []⟩)

/-- With four entries to a block at most, the run of these terms is more than one block. -/
theorem finish_indexed_broad :
    (⟨2, 4⟩ : BlockSizes).check = .ok () ∧ (fresh ⟨2, 4⟩).Holds [] [] [] ∧
      accepted ⟨"body", 0, .freqs⟩ broad ≠ [] ∧ Room (accepted ⟨"body", 0, .freqs⟩ broad) ∧
      (accepted ⟨"body", 0, .freqs⟩ broad).Small ⟨2, 4⟩ ∧
      ∃ blocks indexes summary reader t pairs,
        Reader.loadField blocks indexes [⟨"body", 0, .freqs⟩] summary = .ok reader ∧
        reader.Indexed t pairs := by
  have hsizes : (⟨2, 4⟩ : BlockSizes).check = .ok () := rfl
  have hne : accepted ⟨"body", 0, .freqs⟩ broad ≠ [] := by decide
  have hroom : Room (accepted ⟨"body", 0, .freqs⟩ broad) := by decide
  have hsmall : (accepted ⟨"body", 0, .freqs⟩ broad).Small ⟨2, 4⟩ :=
    Terms.small_of_load _ (by decide)
  obtain ⟨f, w', summary, w'', blocks, indexes, hattempts, hfinish, hholds, hload⟩ :=
    finish_indexed hsizes (holds_fresh ⟨2, 4⟩) ⟨"body", 0, .freqs⟩ broad [1, 2] hne hroom hsmall
  have hshort : ∀ made, attempts { info := ⟨"body", 0, .freqs⟩ } (fresh ⟨2, 4⟩) broad = made →
      (Writer.after (made.2.1.record [1, 2]).finish made.2.2).terms.position = 26 ∧
        (Writer.after (made.2.1.record [1, 2]).finish made.2.2).index.position = 9 := by
    rintro _ rfl
    decide +kernel
  obtain ⟨hblocks, hindexes⟩ := hshort _ hattempts
  rw [Writer.after_ok hfinish, hholds.terms.position] at hblocks
  rw [Writer.after_ok hfinish, hholds.index.position] at hindexes
  obtain ⟨reader, t, pairs, hreader, hindexed⟩ := hload [] [] [⟨"body", 0, .freqs⟩]
    (by rw [List.append_nil, hblocks]; decide) (by rw [List.append_nil, hindexes]; decide) rfl
  exact ⟨hsizes, holds_fresh _, hne, hroom, hsmall, _, _, _, reader, t, pairs, hreader, hindexed⟩

end FieldWriter

namespace SegmentScript

/-- **The fields of a segment are indexed** once it is opened, if they have terms. -/
theorem open_indexed (s : SegmentScript) (h : s.Fits) :
    ∃ streams r, s.streams = .ok streams ∧ Reader.open streams s.segment s.infos = .ok r ∧
      List.Forall₂ (fun (script : FieldScript) (f : FieldReader) =>
        script.kept ≠ [] → ∃ t pairs, f.Indexed t pairs) s.finished r.fields := by
  obtain ⟨streams, r, stored, hstreams, hopen, hstored, hreads⟩ := h.opens
  refine ⟨streams, r, hstreams, hopen, hstored.through hreads fun script x f hscript hx hne => ?_⟩
  rw [← hscript.terms] at hne
  exact hx.exists_indexed hne

end SegmentScript

end Lexicon

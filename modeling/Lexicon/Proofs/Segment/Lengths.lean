import Lexicon.Proofs.Block.Extents
import Lexicon.Proofs.Segment.RoundTrip

/-!
# How long the streams of a segment are

The streams grow with what is written to them and no faster. A block takes at most seven times the
load of its entries. A run stands in the run above it as one entry, whose prefix all its terms have,
so that the entries of all runs of a field have at most twenty-two times the load of its terms.

> **`Rooted.runsLoad_le`** — the entries of all runs of a field are bounded by its terms;
> **`SegmentScript.written_lengths`** — and so are the streams of a segment, by all terms.
-/

namespace Lexicon

/-! ## Blocks -/

theorem load_append (a b : List Entry) : load (a ++ b) = load a + load b := by
  simp [load]

/-- The suffixes take at most 15 bytes more than they have. -/
theorem length_suffixItems_le (suffixes : Bytes) (leaf : Bool) (entries depth : Nat) :
    (Item.encodeAll (suffixItems suffixes leaf (compressSuffixes suffixes entries depth))).length
      ≤ suffixes.length + 15 := by
  unfold suffixItems
  dsimp only
  split
  next c payload h =>
    have hshorter := length_compressSuffixes_lt h
    have htoken := Item.length_encode_nat64 (8 * suffixes.length + 4 * leaf.toNat + c.code)
    have hpayload := Item.length_encode_block payload
    rw [Item.encodeAll_cons, Item.encodeAll_singleton, List.length_append]
    omega
  next =>
    have htoken := Item.length_encode_nat64
      (8 * suffixes.length + 4 * leaf.toNat + Compression.none.code)
    have hbytes : (Item.bytes suffixes).encode = suffixes := rfl
    rw [Item.encodeAll_cons, Item.encodeAll_singleton, List.length_append, hbytes]
    omega

/-- The lengths take at most five bytes more than they have. -/
theorem length_lengthsItems_le (first : UInt8) (rest : Bytes) :
    (Item.encodeAll (lengthsItems first rest)).length ≤ (first :: rest).length + 5 := by
  unfold lengthsItems
  dsimp only
  split
  next =>
    have hcount := Item.length_encode_nat32 (2 * (rest.length + 1) + 1)
    have hbyte : (Item.byte first).encode = [first] := rfl
    rw [Item.encodeAll_cons, Item.encodeAll_singleton, List.length_append, hbyte,
      List.length_singleton, List.length_cons]
    omega
  next =>
    have hcount := Item.length_encode_nat32 (2 * (rest.length + 1))
    have hbytes : (Item.bytes (first :: rest)).encode = first :: rest := rfl
    rw [Item.encodeAll_cons, Item.encodeAll_singleton, List.length_append, hbytes]
    omega

/-- **A block takes no more than seven times the load of its entries.** -/
theorem length_block_le {codec codec' : LongsCodec} {hasFreqs : Bool} {stem : Bytes}
    {plan : BlockPlan} {fp : Nat} {entries : List Entry} {isLast : Bool} {items : List Item}
    {written : WrittenBlock}
    (h : encodeBlock codec hasFreqs stem plan fp entries isLast = .ok (items, written, codec')) :
    (Item.encodeAll items).length ≤ 7 * load entries := by
  obtain ⟨-, -, first, more, hlengths, rfl⟩ := encodeBlock_inversion h
  -- there is an entry, whose load pays for what every block has
  have hentries : 20 ≤ load entries := by
    cases entries with
    | nil => cases hlengths
    | cons e entries =>
      have := e.length_key_le_load
      rw [load_cons]
      omega
  have hcount := Item.length_encode_nat32 (2 * entries.length + isLast.toNat)
  have hsuffixes := length_suffixItems_le (suffixBytes stem.length entries) (!plan.hasSubBlocks)
    entries.length stem.length
  have hsuffixLoad := length_suffixBytes_le stem.length entries
  have hlengthLoad := length_lengthBytes_le stem.length (!plan.hasSubBlocks) fp entries
  have hlengthItems := length_lengthsItems_le first more
  have hstats := Item.length_encode_block
    (BlockStats.encode hasFreqs ((termStates entries).map (·.toTermStats)))
  have hstatsRow := length_stats_le hasFreqs ((termStates entries).map (·.toTermStats)) 0
  have hstates := length_termStates_le entries
  have hlongs := Item.length_encode_block
    (Item.encodeAll (longsItems codec true (termStates entries)).1)
  have hlongsLoad := length_longsItems_le entries codec true
  rw [hlengths] at hlengthLoad
  rw [List.length_map] at hstatsRow
  change (BlockStats.encode hasFreqs ((termStates entries).map (·.toTermStats))).length
    ≤ _ at hstatsRow
  rw [blockItems, Item.encodeAll_append, Item.encodeAll_append, Item.encodeAll_append,
    Item.encodeAll_singleton, Item.encodeAll_cons, Item.encodeAll_singleton]
  simp only [List.length_append]
  omega

/-! ## Runs -/

namespace Frontier

variable {hasFreqs : Bool} {stem : Bytes}

/-- A block takes at most seven bytes for each unit of its load. -/
theorem position_emitBlock_le {plan : BlockPlan} {entries : List Entry} {isLast : Bool}
    {out out' : Emission} {written : WrittenBlock}
    (h : emitBlock hasFreqs stem plan entries isLast out = .ok written out') :
    out'.position ≤ out.position + 7 * load entries := by
  unfold emitBlock at h
  split at h
  next => cases h
  next hencode =>
    cases h
    exact Nat.add_le_add_left (length_block_le hencode) _

theorem position_emitRun_le (plans : List BlockPlan) :
    ∀ {entries : List Entry} {out out' : Emission} {written : List WrittenBlock},
      emitRun hasFreqs stem plans entries out = .ok written out' →
      out'.position ≤ out.position + 7 * load entries := by
  induction plans with
  | nil =>
    intro entries out out' written h
    unfold emitRun at h
    split at h <;> cases h
    exact Nat.le_add_right ..
  | cons plan plans ih =>
    intro entries out out' written h
    obtain ⟨block, mid, hblock, h⟩ := exists_of_bind_ok h
    obtain ⟨blocks, last, hothers, h⟩ := exists_of_bind_ok h
    cases h
    have hfirst := position_emitBlock_le hblock
    have hrest := ih hothers
    have hload := load_append (entries.take plan.size) (entries.drop plan.size)
    rw [List.take_append_drop] at hload
    omega

end Frontier

/-- The load of the entries of all runs. -/
def runsLoad (runs : List Run) : Nat := (runs.map fun r => load r.entries).sum

theorem runsLoad_cons (r : Run) (runs : List Run) :
    runsLoad (r :: runs) = load r.entries + runsLoad runs := by
  simp [runsLoad]

theorem runsLoad_append (a b : List Run) : runsLoad (a ++ b) = runsLoad a + runsLoad b := by
  simp [runsLoad]

/-- Runs take at most seven bytes for each unit of their load. -/
theorem Emits.position_le {sizes : BlockSizes} {hasFreqs : Bool} {out out' : Emission}
    {runs : List Run} (h : Emits sizes hasFreqs out runs out') :
    out'.position ≤ out.position + 7 * runsLoad runs := by
  induction h with
  | nil => exact Nat.le_add_right ..
  | cons first _ ih =>
    have hfirst := Frontier.position_emitRun_le _ first.written
    rw [runsLoad_cons]
    omega

/-! ## The runs of a field -/

/-- A load counts the bytes of all terms. -/
theorem termBytes_le_load (terms : Terms) : termBytes terms ≤ terms.load := by
  induction terms with
  | nil => exact Nat.le_refl _
  | cons t terms ih =>
    rw [termBytes_cons, Terms.load_cons]
    simp only [Entry.load]
    omega

theorem Terms.load_append (a b : Terms) : Terms.load (a ++ b) = a.load + b.load := by
  simp [Terms.load]

section

variable {sizes : BlockSizes} {stored : Run → Prop} {terms : Terms} {runs : List Run}

/-- Besides the terms, the runs have one entry for each other. -/
theorem Stands.load_le {entries : List Entry} (h : Stands sizes stored entries terms runs) :
    load entries + runsLoad runs
      ≤ terms.load + 21 * Transducer.keyBytes (runs.map Run.pair) := by
  induction h with
  | nil => exact Nat.le_refl _
  | @term key state rest terms runs _ ih =>
    rw [load_cons, Terms.load_cons]
    show Entry.load (.term key state) + _ + _ ≤ Entry.load (.term key state) + _ + _
    omega
  | @block b r inside terms rest below runs stem _ proper _ _ _ _ _ ihInner ihOthers =>
    -- the prefix is not empty, so that its bytes pay for the entry
    have hpos := List.length_pos_iff.mpr proper
    have hentry : Entry.load (.block b) = r.stem.length + 20 := by
      rw [Entry.load, stem]
    rw [load_cons, List.cons_append, runsLoad_cons, runsLoad_append, Terms.load_append,
      List.map_cons, Transducer.keyBytes_cons, List.map_append, Transducer.keyBytes_append, hentry]
    show _ ≤ _ + 21 * (r.stem.length + _)
    omega

/-- **The entries of all runs of a field** are no more than its terms allow. -/
theorem Rooted.runsLoad_le {index : Transducer} (hmin : 2 ≤ sizes.min)
    (h : Rooted sizes stored index terms runs) : runsLoad runs ≤ 22 * terms.load := by
  obtain ⟨r, below, rfl, -, -, -, hstands, -⟩ := h
  have hload := hstands.load_le
  have hkeys := hstands.keyBytes_le hmin
  have hbytes := termBytes_le_load terms
  rw [runsLoad_cons]
  omega

end

/-! ## Segments -/

/-- A header takes 34 bytes besides its names. -/
theorem length_headerBytes_le (segment : Segment) (codec : String) :
    (headerBytes segment codec).length
      ≤ (Bytes.ofString codec).length + (Bytes.ofString segment.suffix).length + 34 := by
  have hword : ∀ n : UInt32, (Item.u32 n).encode.length = 4 := fun n => Bytes.length_littleEndian ..
  have hcodec := Item.length_encode_block (Bytes.ofString codec)
  have hsuffix := Item.length_encode_block (Bytes.ofString segment.suffix)
  have hid : (Item.bytes segment.id.bytes).encode.length = 16 := segment.id.length_eq
  rw [headerBytes, Streams.header, Frame.header]
  simp only [Item.encodeAll_cons, Item.encodeAll_nil, List.length_append, List.length_nil, hword,
    hid, Item.text]
  omega

theorem Terms.load_kept (terms : Terms) (hasFreqs : Bool) :
    Terms.load (terms.kept hasFreqs) = terms.load := by
  rw [load, load, kept, List.map_map]
  refine congrArg List.sum (List.map_congr_left fun t _ => ?_)
  cases hasFreqs <;> rfl

/-- **What fields add to the stream of blocks** is bounded by their terms, if all are finished. -/
theorem Adds.length_le {sizes : BlockSizes} {stream more whole index : Bytes}
    {scripts : List FieldScript} {stored : List StoredField} (hmin : 2 ≤ sizes.min)
    (h : Adds sizes stream scripts stored more) :
    (∀ s ∈ scripts, s.finished = true) → (∀ f ∈ stored, f.In sizes whole index) →
      more.length ≤ 154 * (scripts.map fun s => s.terms.load).sum := by
  induction h with
  | nil => exact fun _ _ => Nat.zero_le _
  | @finished stream more script scripts field stored items runs codec _ same perm emits _ ih =>
    intro hscripts hstored
    obtain ⟨hin, hothers⟩ := List.forall_mem_cons.mp hstored
    have hrest := ih (fun s hs => hscripts s (List.mem_cons_of_mem _ hs)) hothers
    have hposition : (Item.encodeAll items).length ≤ 7 * runsLoad runs :=
      Nat.le_of_add_le_add_left emits.position_le
    have hruns : runsLoad field.runs ≤ 22 * script.terms.load := by
      rw [← Terms.load_kept script.terms script.hasFreqs, ← FieldScript.kept, ← same.terms,
        StoredField.runs]
      cases htree : field.tree with
      | none => exact Nat.zero_le _
      | some tree => exact (hin.rooted tree.1 tree.2 htree).1.runsLoad_le hmin
    have hsame : runsLoad runs = runsLoad field.runs := (perm.map _).sum_nat.symm
    rw [List.length_append, List.map_cons, List.sum_cons]
    omega
  | @dropped stream more script scripts _ _ _ _ dropped =>
    intro hscripts
    rw [hscripts script (List.mem_cons_self ..)] at dropped
    cases dropped

namespace SegmentScript

variable {s : SegmentScript}

/-- **The streams of a segment are no longer than its terms allow**, if all its fields are
finished. -/
theorem written_lengths (hsizes : s.sizes.check = .ok ())
    (hnumbers : s.infos.Pairwise (·.number < ·.number)) (hfields : ∀ f ∈ s.fields, f.Acceptable)
    (hfinished : ∀ f ∈ s.fields, f.finished = true) {w : Writer Memory} (hw : s.written = .ok w) :
    w.terms.position ≤ (headerBytes s.segment Streams.codecs.terms).length
        + 154 * (s.fields.map fun f => f.terms.load).sum ∧
      w.index.position ≤ (headerBytes s.segment Streams.codecs.index).length
        + (s.fields.map fun f => indexRoom f.terms).sum := by
  have hvalid := BlockSizes.valid_of_check hsizes
  obtain ⟨w₀, hstart, hhas⟩ := Writer.start_spec s.segment hsizes
  obtain ⟨w', moreTerms, moreIndex, stored, hrun, hhas', hadds, hnarrow⟩ :=
    Writer.runAll_spec hvalid s.fields hhas hfields hnumbers
  rw [List.nil_append] at hhas'
  obtain rfl : w' = w := by
    rw [written, hstart] at hw
    simp only [hrun] at hw
    exact Except.ok.inj hw
  have hlength := hadds.length_le hvalid.two_le hfinished hhas'.inside
  rw [hhas'.holds.terms.position, hhas'.holds.index.position, List.length_append,
    List.length_append]
  exact ⟨Nat.add_le_add_left hlength _, Nat.add_le_add_left hnarrow _⟩

end SegmentScript

end Lexicon

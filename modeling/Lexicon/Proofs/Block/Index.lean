import Lexicon.Proofs.Block.Location
import Lexicon.Proofs.Block.Run
import Lexicon.Proofs.Order
import Lexicon.Proofs.Pairing
import Lexicon.Proofs.Transducer.Building

/-!
# The index of a run

`compileIndex_spec`: the index of a run maps the prefix of the run to where its pieces are, and
every prefix that the indexes of its sub-blocks map to the same as these. The blocks of a run are a
row (`WrittenBlock.Rowed`), which is all that an index asks of them (`compileIndex_eq`).

The entries of a run are in order, so their next bytes are too (`Entry.rank_le`), and the pieces of
the run have different ones (`Sliced`). That is why a byte tells in which piece an entry is, and why
a run has no more pieces than there are bytes.
-/

namespace Lexicon

/-! ## The byte after the prefix -/

/-- The place of the next byte in its order, no byte coming first. -/
def leadRank : Option UInt8 → Nat
  | none => 0
  | some b => b.toNat + 1

/-- A byte is known from its rank. -/
theorem leadRank_inj {a b : Option UInt8} (h : leadRank a = leadRank b) : a = b := by
  rcases a with _ | a <;> rcases b with _ | b <;> simp only [leadRank] at h
  · rfl
  · omega
  · omega
  · have heq : a = b := UInt8.toNat_inj.mp (by omega)
    rw [heq]

theorem leadRank_le (a : Option UInt8) : leadRank a ≤ 256 := by
  cases a with
  | none => exact Nat.zero_le _
  | some b => exact b.toNat_lt

/-- What is greater behind a prefix is greater by itself. -/
theorem lt_of_append_lt {stem x y : Bytes} (h : stem ++ x < stem ++ y) : x < y := by
  induction stem with
  | nil => exact h
  | cons c stem ih =>
    rw [List.cons_append, List.cons_append, List.cons_lt_cons_iff] at h
    rcases h with hlt | ⟨-, hlt⟩
    · exact absurd hlt (UInt8.lt_irrefl _)
    · exact ih hlt

/-- Strings with a common prefix are in the order of the byte after it. -/
theorem leadRank_getElem?_le {stem a b : Bytes} (ha : stem <+: a) (hb : stem <+: b) (hlt : a < b) :
    leadRank a[stem.length]? ≤ leadRank b[stem.length]? := by
  obtain ⟨x, rfl⟩ := ha
  obtain ⟨y, rfl⟩ := hb
  rw [List.getElem?_append_right (Nat.le_refl _), List.getElem?_append_right (Nat.le_refl _),
    Nat.sub_self]
  have hxy := lt_of_append_lt hlt
  cases x with
  | nil => exact Nat.zero_le _
  | cons c x =>
    cases y with
    | nil => exact absurd hxy (List.not_lt_nil _)
    | cons d y =>
      rw [List.cons_lt_cons_iff] at hxy
      show c.toNat + 1 ≤ d.toNat + 1
      rcases hxy with hlt | ⟨rfl, -⟩
      · have := UInt8.lt_iff_toNat_lt.mp hlt
        omega
      · exact Nat.le_refl _

/-- The place of an entry among those that share `depth` bytes, as far as its next byte tells. -/
def Entry.rank (depth : Nat) (e : Entry) : Nat := leadRank (e.lead depth)

/-- Entries in order have their ranks in order. -/
theorem Entry.rank_le {stem : Bytes} {x y : Entry} (hx : stem <+: x.key) (hy : stem <+: y.key)
    (hlt : x.key < y.key) : x.rank stem.length ≤ y.rank stem.length :=
  leadRank_getElem?_le hx hy hlt

/-- An entry after another does not sort before the byte that the other begins with. -/
theorem Entry.notBefore_of_lt {stem : Bytes} {x y : Entry} (hx : stem <+: x.key)
    (hy : stem <+: y.key) (hlt : x.key < y.key) :
    y.notBefore stem.length (x.lead stem.length) = true := by
  have hle : leadRank (x.lead stem.length) ≤ leadRank (y.lead stem.length) := rank_le hx hy hlt
  rw [notBefore]
  cases hlead : x.lead stem.length with
  | none => rfl
  | some label =>
    cases hlead' : y.lead stem.length with
    | none =>
      rw [hlead, hlead', leadRank, leadRank] at hle
      omega
    | some label' =>
      rw [hlead, hlead', leadRank, leadRank] at hle
      exact decide_eq_true (UInt8.le_iff_toNat_le.mpr (by omega))

/-! ## Pieces -/

/-- The pieces have the entries of the run, in order, and the next bytes of one are all before those
of the next. -/
structure Sliced (depth : Nat) (entries : List Entry) (pieces : List Piece) : Prop where
  entries : pieces.flatMap (·.entries) = entries
  nonempty : ∀ p ∈ pieces, p.entries ≠ []
  ranks : pieces.Pairwise fun p q => ∀ x ∈ p.entries, ∀ y ∈ q.entries, x.rank depth < y.rank depth

/-- Blocks that were planned have the ranks of their entries in order. -/
theorem Parts.pairwise_rank {depth count : Nat} {sizes : BlockSizes} {lead : Option UInt8}
    {plans : List BlockPlan} {entries : List Entry}
    (h : Parts depth sizes count lead plans entries)
    (hsorted : entries.Pairwise fun x y => x.rank depth ≤ y.rank depth) :
    (BlockPlan.groups plans entries).Pairwise
      fun g g' => ∀ x ∈ g, ∀ y ∈ g', x.rank depth < y.rank depth := by
  induction h with
  | last takes _ =>
    rw [takes.groups_singleton]
    exact List.pairwise_singleton ..
  | @cut lead plan plans group rest e takes _ _ parting others ih =>
    obtain ⟨hfront, hback, hcross⟩ := List.pairwise_append.mp hsorted
    rw [takes.groups_append]
    refine List.pairwise_cons.mpr ⟨fun g hg x hx y hy => ?_, ih hback⟩
    -- All from `e` on come after the byte changes, and the last of the row comes before.
    have hy' : e.rank depth ≤ y.rank depth := by
      have hmem : y ∈ e :: rest := by
        rw [← others.flatten_groups]
        exact List.mem_flatten.mpr ⟨g, hg, hy⟩
      rcases List.mem_cons.mp hmem with rfl | hmem
      · exact Nat.le_refl _
      · exact (List.pairwise_cons.mp hback).1 y hmem
    obtain ⟨front, z, rfl⟩ := List.eq_nil_or_concat group |>.resolve_left takes.nonempty
    rw [List.concat_eq_append] at hfront hcross hx parting
    have hz : z.rank depth < e.rank depth := by
      have hle := hcross z (by simp) e (List.mem_cons_self ..)
      have hne : z.rank depth ≠ e.rank depth := fun heq =>
        parting z (by simp) (leadRank_inj heq)
      omega
    have hx' : x.rank depth ≤ z.rank depth := by
      rcases List.mem_append.mp hx with hx | hx
      · exact (List.pairwise_append.mp hfront).2.2 x hx z (by simp)
      · rw [List.mem_singleton.mp hx]
    omega

/-- Pieces that take the rows of the plans are sliced, if the bytes are in order. -/
theorem Parts.sliced {depth count : Nat} {sizes : BlockSizes} {lead : Option UInt8}
    {plans : List BlockPlan} {entries : List Entry} {pieces : List Piece}
    (h : Parts depth sizes count lead plans entries)
    (hgroups : pieces.map (·.entries) = BlockPlan.groups plans entries)
    (hranks : entries.Pairwise fun x y => x.rank depth ≤ y.rank depth) :
    Sliced depth entries pieces := by
  refine ⟨?_, fun p hp => ?_, ?_⟩
  · rw [List.flatMap_def, hgroups, h.flatten_groups]
  · exact h.groups_nonempty _ (hgroups ▸ List.mem_map_of_mem hp)
  · have := h.pairwise_rank hranks
    rwa [← hgroups, List.pairwise_map] at this

/-- **The pieces of a run have different bytes after the prefix.** -/
theorem sliced_of_groups {sizes : BlockSizes} {stem : Bytes} {count : Nat} {lead : Option UInt8}
    {plans : List BlockPlan} {entries : List Entry} {pieces : List Piece}
    (h : Parts stem.length sizes count lead plans entries)
    (hgroups : pieces.map (·.entries) = BlockPlan.groups plans entries)
    (hsorted : entries.Pairwise fun x y => x.key < y.key) (hstem : ∀ e ∈ entries, stem <+: e.key) :
    Sliced stem.length entries pieces :=
  h.sliced hgroups (hsorted.imp_of_mem fun hx hy hlt => Entry.rank_le (hstem _ hx) (hstem _ hy) hlt)

/-! ## Where the pieces are -/

namespace Piece

/-- The piece as one that is not the first of its run. -/
def sibling (depth : Nat) (p : Piece) : Sibling := ⟨(p.lead depth).getD 0, p.fp, p.hasTerms⟩

/-- Where the pieces of a run of `count` entries are. -/
def location (depth count : Nat) : List Piece → Location
  | [] => ⟨0, false, false, []⟩
  | p :: rest => ⟨p.fp, p.hasTerms, decide (p.entries.length < count), rest.map (sibling depth)⟩

/-- A piece begins with the byte of its first entry. -/
theorem exists_rank_eq {p : Piece} (h : p.entries ≠ []) (depth : Nat) :
    ∃ e ∈ p.entries, leadRank (p.lead depth) = e.rank depth := by
  obtain ⟨e, rest, he⟩ := List.exists_cons_of_ne_nil h
  refine ⟨e, by rw [he]; exact List.mem_cons_self .., ?_⟩
  rw [lead, he]
  rfl

end Piece

namespace Sliced

variable {depth : Nat} {entries : List Entry} {pieces : List Piece}

/-- The bytes that the pieces begin with are in order. -/
theorem leads (h : Sliced depth entries pieces) :
    pieces.Pairwise fun p q => leadRank (p.lead depth) < leadRank (q.lead depth) := by
  refine h.ranks.imp_of_mem fun hp hq hranks => ?_
  obtain ⟨x, hx, hxrank⟩ := Piece.exists_rank_eq (h.nonempty _ hp) depth
  obtain ⟨y, hy, hyrank⟩ := Piece.exists_rank_eq (h.nonempty _ hq) depth
  rw [hxrank, hyrank]
  exact hranks x hx y hy

/-- All pieces but the first begin with a byte. -/
theorem exists_lead {p : Piece} {rest : List Piece} (h : Sliced depth entries (p :: rest)) :
    ∀ q ∈ rest, ∃ label, q.lead depth = some label := by
  intro q hq
  have hlt := (List.pairwise_cons.mp h.leads).1 q hq
  cases hlead : q.lead depth with
  | none => rw [hlead] at hlt; exact absurd hlt (Nat.not_lt_zero _)
  | some label => exact ⟨label, rfl⟩

/-- Pieces that begin with different bytes, in order, are no more than there are bytes left. -/
theorem length_add_le_of_leads : ∀ (pieces : List Piece) (low : Nat), low ≤ 257 →
    (pieces.Pairwise fun p q => leadRank (p.lead depth) < leadRank (q.lead depth)) →
    (∀ p ∈ pieces, low ≤ leadRank (p.lead depth)) → pieces.length + low ≤ 257 := by
  intro pieces
  induction pieces with
  | nil => intro low hlow _ _; simpa using hlow
  | cons p pieces ih =>
    intro low hlow hleads hfrom
    rw [List.pairwise_cons] at hleads
    have hfirst := hfrom p (List.mem_cons_self ..)
    have hle := leadRank_le (p.lead depth)
    have hrest := ih (leadRank (p.lead depth) + 1) (by omega) hleads.2 hleads.1
    rw [List.length_cons]
    omega

/-- There are no more pieces than bytes, and one for none. -/
theorem length_le (h : Sliced depth entries pieces) : pieces.length ≤ 257 :=
  length_add_le_of_leads pieces 0 (Nat.zero_le _) h.leads fun _ _ => Nat.zero_le _

/-- A run is one piece if that has all its entries. -/
theorem floor {p : Piece} {rest : List Piece} (h : Sliced depth entries (p :: rest)) :
    decide (p.entries.length < entries.length) = !rest.isEmpty := by
  rw [← h.entries, List.flatMap_cons, List.length_append]
  cases rest with
  | nil => simp
  | cons q rest =>
    have := List.length_pos_iff.mpr (h.nonempty q (by simp))
    rw [List.flatMap_cons, List.length_append, decide_eq_true (by omega)]
    rfl

end Sliced

/-! ## A row of blocks -/

namespace WrittenBlock

/-- The block as one that is not the first of its run. -/
def sibling (b : WrittenBlock) : Sibling := ⟨b.lead.getD 0, b.fp, b.hasTerms⟩

/-- Where the blocks of a run are. -/
def location (first : WrittenBlock) (rest : List WrittenBlock) : Location :=
  ⟨first.fp, first.hasTerms, first.isFloor, rest.map sibling⟩

/-- The run of a first block. Its index maps its prefix to the location, and then all that the given
indexes map. -/
def asRun (first : WrittenBlock) (l : Location) (indexes : List Transducer) :
    Except Error SubBlock := do
  let below ← indexes.mapM Transducer.entries
  let builder ← ({} : Transducer.Builder).addAll ((first.stem, l.encode) :: below.flatten)
  return { stem := first.stem, fp := first.fp, hasTerms := first.hasTerms
           isFloor := first.isFloor, lead := first.lead, index := builder.finish }

/-- The blocks are those of one run: the first is one of several if there are others, and these lie
behind it and begin with a byte. -/
structure Rowed (first : WrittenBlock) (rest : List WrittenBlock) : Prop where
  isFloor : rest ≠ [] → first.isFloor = true
  after : ∀ b ∈ rest, first.fp < b.fp
  leads : ∀ b ∈ rest, ∃ label, b.lead = some label

/-- Blocks behind the first, each with its byte, are its siblings. -/
theorem siblingsAfter_eq {fp : Nat} {blocks : List WrittenBlock} (hafter : ∀ b ∈ blocks, fp < b.fp)
    (hleads : ∀ b ∈ blocks, ∃ label, b.lead = some label) :
    siblingsAfter fp blocks = .ok (blocks.map sibling) := by
  induction blocks with
  | nil => rfl
  | cons b blocks ih =>
    obtain ⟨label, hlabel⟩ := hleads b (List.mem_cons_self ..)
    have hfp := hafter b (List.mem_cons_self ..)
    have hrest := ih (fun c hc => hafter c (List.mem_cons_of_mem _ hc))
      fun c hc => hleads c (List.mem_cons_of_mem _ hc)
    rw [siblingsAfter, hrest, List.map_cons, sibling]
    simp only [hlabel, if_neg (Nat.not_le.mpr hfp)]
    rfl

/-- **The index of a row of blocks** is that of their location and of all their sub-blocks. -/
theorem compileIndex_eq {first : WrittenBlock} {rest : List WrittenBlock} (h : Rowed first rest) :
    compileIndex (first :: rest)
      = first.asRun (location first rest) ((first :: rest).flatMap (·.subIndexes)) := by
  have hfloor : ¬ (!first.isFloor && !rest.isEmpty) = true := by
    cases rest with
    | nil => simp
    | cons b rest => simp [h.isFloor (List.cons_ne_nil b rest)]
  rw [compileIndex, if_neg hfloor, siblingsAfter_eq h.after h.leads]
  rfl

end WrittenBlock

/-- Blocks are where their pieces are. -/
theorem Piece.location_written (stem : Bytes) (count : Nat) (p : Piece) (rest : List Piece) :
    WrittenBlock.location (p.written stem count none)
      (rest.map fun q => q.written stem count (q.lead stem.length))
        = location stem.length count (p :: rest) := by
  rw [WrittenBlock.location, List.map_map]
  rfl

/-- The blocks that are written of the pieces of a run are a row of blocks. -/
theorem Sliced.rowed {stem : Bytes} {entries : List Entry} {p : Piece} {rest : List Piece}
    (h : Sliced stem.length entries (p :: rest)) (hfps : (p :: rest).Pairwise (·.fp < ·.fp)) :
    WrittenBlock.Rowed (p.written stem entries.length none)
      (rest.map fun q => q.written stem entries.length (q.lead stem.length)) := by
  refine ⟨fun hne => ?_, fun b hb => ?_, fun b hb => ?_⟩
  · -- a run is in floors if its first piece does not have all its entries
    show decide (p.entries.length < entries.length) = true
    rw [h.floor]
    simpa using hne
  · obtain ⟨q, hq, rfl⟩ := List.mem_map.mp hb
    exact (List.pairwise_cons.mp hfps).1 q hq
  · obtain ⟨q, hq, rfl⟩ := List.mem_map.mp hb
    exact h.exists_lead q hq

/-- The indexes below some entries come one after the other. -/
theorem subIndexes_append (a b : List Entry) :
    subIndexes (a ++ b) = subIndexes a ++ subIndexes b := List.filterMap_append

/-- The indexes below a run are those below its pieces. -/
theorem subIndexes_flatMap (pieces : List Piece) :
    subIndexes (pieces.flatMap (·.entries)) = pieces.flatMap fun p => subIndexes p.entries := by
  induction pieces with
  | nil => rfl
  | cons p pieces ih => rw [List.flatMap_cons, subIndexes_append, ih, List.flatMap_cons]

/-- The blocks of a run have the indexes below its entries. -/
theorem flatMap_subIndexes (stem : Bytes) (count : Nat) (lead : Option UInt8)
    (pieces : List Piece) :
    (Piece.writtenFrom stem count lead pieces).flatMap (·.subIndexes)
      = subIndexes (pieces.flatMap (·.entries)) := by
  rw [subIndexes_flatMap]
  cases pieces with
  | nil => rfl
  | cons p pieces =>
    rw [Piece.writtenFrom, List.flatMap_cons, List.flatMap_map, List.flatMap_cons]
    rfl

/-- Indexes with known entries are read. -/
theorem mapM_entries {indexes : List Transducer} {parts : List Pairs}
    (h : List.Forall₂ Transducer.Denotes indexes parts) :
    indexes.mapM Transducer.entries = .ok parts :=
  mapM_ok (h.imp fun _ _ hd => Transducer.entries_eq hd)

/-- **The index of a run**: its own prefix, and all that the indexes of its sub-blocks map. -/
theorem compileIndex_spec {most : Nat} {stem : Bytes} {entries : List Entry} {pieces : List Piece}
    {parts : List Pairs} (hwidth : most < 2 ^ 32) (hne : pieces ≠ [])
    (hsliced : Sliced stem.length entries pieces) (hfps : pieces.Pairwise (·.fp < ·.fp))
    (hparts : List.Forall₂ Transducer.Denotes (subIndexes entries) parts)
    (hincreasing : Pairs.Increasing
      ((stem, (Piece.location stem.length entries.length pieces).encode) :: parts.flatten))
    (hmost : ∀ p ∈ (stem, (Piece.location stem.length entries.length pieces).encode)
      :: parts.flatten, p.2.length ≤ most)
    (hroom : Transducer.arcRoom most * Transducer.keyBytes
      ((stem, (Piece.location stem.length entries.length pieces).encode) :: parts.flatten)
        ≤ 2 ^ 64) :
    ∃ b, compileIndex (Piece.writtenFrom stem entries.length none pieces) = .ok b ∧
      b.index.Denotes
        ((stem, (Piece.location stem.length entries.length pieces).encode) :: parts.flatten) ∧
      b.index.nodes.length ≤ Transducer.arcRoom most * Transducer.keyBytes
        ((stem, (Piece.location stem.length entries.length pieces).encode) :: parts.flatten) := by
  obtain ⟨p, rest, rfl⟩ := List.exists_cons_of_ne_nil hne
  obtain ⟨builder, hbuild, hdenotes, hlength⟩ :=
    Transducer.build_spec hwidth hincreasing hmost hroom
  have hbelow : ((Piece.writtenFrom stem entries.length none (p :: rest)).flatMap
      (·.subIndexes)).mapM Transducer.entries = .ok parts := by
    rw [flatMap_subIndexes, hsliced.entries, mapM_entries hparts]
  have hstem : (p.written stem entries.length none).stem = stem := by simp [Piece.written]
  refine ⟨⟨stem, p.fp, p.hasTerms, decide (p.entries.length < entries.length), none,
    builder.finish⟩, ?_, hdenotes, hlength⟩
  rw [Piece.writtenFrom] at hbelow ⊢
  rw [WrittenBlock.compileIndex_eq (hsliced.rowed hfps), WrittenBlock.asRun, hbelow,
    Piece.location_written, hstem]
  show ({} : Transducer.Builder).addAll
    ((stem, (Piece.location stem.length entries.length (p :: rest)).encode) :: parts.flatten)
      >>= _ = _
  rw [hbuild]
  rfl

/-- Whatever its index comes to, the run stands for its prefix and starts at its first piece. -/
theorem compileIndex_ok {stem : Bytes} {count : Nat} {pieces : List Piece} {b : SubBlock}
    (h : compileIndex (Piece.writtenFrom stem count none pieces) = .ok b) :
    b.stem = stem ∧ ∃ p rest, pieces = p :: rest ∧ b.fp = p.fp := by
  cases pieces with
  | nil => simp [Piece.writtenFrom, compileIndex] at h
  | cons p rest =>
    rw [Piece.writtenFrom, compileIndex] at h
    split at h
    next => exact absurd h (by simp [bind, Except.bind])
    next =>
      obtain ⟨siblings, -, h⟩ := of_bind_eq_ok h
      obtain ⟨below, -, h⟩ := of_bind_eq_ok h
      obtain ⟨builder, -, h⟩ := of_bind_eq_ok h
      obtain rfl := Except.ok.inj h
      exact ⟨by simp [Piece.written], p, rest, rfl, rfl⟩

/-! ## Locations fit -/

/-- The location of a run can be stored if its blocks are near enough. -/
theorem location_storable {depth : Nat} {entries : List Entry} {pieces : List Piece}
    (hsliced : Sliced depth entries pieces) (hne : pieces ≠ [])
    (hfps : pieces.Pairwise (·.fp < ·.fp)) (hroom : ∀ p ∈ pieces, p.fp < 2 ^ 62) :
    (Piece.location depth entries.length pieces).Storable := by
  obtain ⟨p, rest, rfl⟩ := List.exists_cons_of_ne_nil hne
  have hlength := hsliced.length_le
  rw [List.length_cons] at hlength
  refine ⟨hroom p (List.mem_cons_self ..), fun s hs => ?_, ?_, fun hfloor => ?_⟩
  · obtain ⟨q, hq, rfl⟩ := List.mem_map.mp hs
    exact ⟨(List.pairwise_cons.mp hfps).1 q hq, hroom q (List.mem_cons_of_mem _ hq)⟩
  · rw [Piece.location, List.length_map]
    omega
  · rw [Piece.location, hsliced.floor] at hfloor
    cases rest with
    | nil => rfl
    | cons q rest => simp at hfloor

/-- What the index maps a prefix to is short. -/
def locationRoom : Nat := 2831

/-- A sibling takes its byte and the way to it. -/
theorem length_siblings_le (base : Nat) (siblings : List Sibling) :
    (Item.encodeAll (siblings.flatMap (Location.siblingItems base))).length
      ≤ 11 * siblings.length := by
  induction siblings with
  | nil => exact Nat.zero_le _
  | cons s siblings ih =>
    have hcode := Item.length_encode_vlong (UInt64.ofNat (2 * (s.fp - base) + s.hasTerms.toNat))
    rw [List.flatMap_cons, Item.encodeAll_append, List.length_append, Location.siblingItems,
      Item.encodeAll_cons, Item.encodeAll_singleton, List.length_append, List.length_cons]
    show 1 + (Item.vlong _).encode.length + _ ≤ _
    omega

/-- A location has at most 257 blocks, so it takes a bounded number of bytes. -/
theorem length_encode_location {depth : Nat} {entries : List Entry} {pieces : List Piece}
    (hsliced : Sliced depth entries pieces) :
    (Piece.location depth entries.length pieces).encode.length ≤ locationRoom := by
  have hcount : (Piece.location depth entries.length pieces).siblings.length ≤ 256 := by
    have := hsliced.length_le
    cases pieces with
    | nil => exact Nat.zero_le _
    | cons p rest =>
      rw [List.length_cons] at this
      rw [Piece.location, List.length_map]
      omega
  generalize Piece.location depth entries.length pieces = l at hcount ⊢
  have hhead := Item.length_encode_vlong (Location.code l.fp l.hasTerms l.isFloor)
  have hnumber := Item.length_encode_vint (UInt32.ofNat l.siblings.length)
  have hlist := length_siblings_le l.fp l.siblings
  rw [Location.encode, Location.items, Item.encodeAll_cons, List.length_append, locationRoom]
  split
  next =>
    rw [Item.encodeAll_cons, List.length_append]
    show (Item.vlong _).encode.length + ((Item.vint _).encode.length + _) ≤ _
    omega
  next =>
    rw [Item.encodeAll_nil, List.length_nil]
    omega

end Lexicon

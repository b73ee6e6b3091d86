import Lexicon.Block.Frontier
import Lexicon.Proofs.Block.Plan
import Lexicon.Proofs.Block.RoundTrip

/-!
# Runs are written whole

A run is written as one block after the other, each the piece of the run that its plan says.
`emitRun_spec` gives the pieces with their places, and says that the bytes written are a chain of
blocks to every reader (`Chain`): the pieces are read back one from the end of the other, and only
the last tells that it is the last.
-/

namespace Lexicon

/-- A block of a run: where it starts, and the entries in it. -/
structure Piece where
  fp : Nat
  entries : List Entry

namespace Piece

def hasTerms (p : Piece) : Bool := p.entries.any Entry.isTerm

/-- The byte after the prefix of the first entry. -/
def lead (depth : Nat) (p : Piece) : Option UInt8 := p.entries.head?.bind (·.lead depth)

/-- What is left of the piece to index, if it begins with the given byte. -/
def written (stem : Bytes) (count : Nat) (lead : Option UInt8) (p : Piece) : WrittenBlock :=
  let isFloor := decide (p.entries.length < count)
  { fp := p.fp, stem := stem ++ (if isFloor then lead.toList else []), hasTerms := p.hasTerms
    isFloor, lead, subIndexes := subIndexes p.entries }

/-- What is left of the pieces of a run to index. The first begins with the given byte. -/
def writtenFrom (stem : Bytes) (count : Nat) (lead : Option UInt8) : List Piece → List WrittenBlock
  | [] => []
  | p :: rest =>
    p.written stem count lead :: rest.map fun q => q.written stem count (q.lead stem.length)

/-- What the formats ask of a piece. -/
structure Storable (hasFreqs : Bool) (p : Piece) : Prop where
  load_lt : load p.entries < 2 ^ 31
  recordable : ∀ key state, .term key state ∈ p.entries →
    BlockStats.Recordable hasFreqs state.toTermStats

end Piece

/-- These pieces of a run are read one from the end of the other. -/
inductive Chain (terms : Bytes) (hasFreqs : Bool) (depth : Nat) : Nat → List Piece → Prop
  | last {fp stop : Nat} {entries : List Entry}
      (reads : Block.Reads terms hasFreqs fp depth true entries stop) :
      Chain terms hasFreqs depth fp [⟨fp, entries⟩]
  | more {fp stop : Nat} {entries : List Entry} {pieces : List Piece}
      (reads : Block.Reads terms hasFreqs fp depth false entries stop)
      (others : Chain terms hasFreqs depth stop pieces) :
      Chain terms hasFreqs depth fp (⟨fp, entries⟩ :: pieces)

/-- Every piece of a chain is read. -/
theorem Chain.exists_reads {terms : Bytes} {hasFreqs : Bool} {depth fp : Nat}
    {pieces : List Piece} (h : Chain terms hasFreqs depth fp pieces) :
    ∀ p ∈ pieces, ∃ isLast stop, Block.Reads terms hasFreqs p.fp depth isLast p.entries stop := by
  induction h with
  | @last fp stop entries reads =>
    intro p hp
    obtain rfl := List.mem_singleton.mp hp
    exact ⟨true, stop, reads⟩
  | @more fp stop entries pieces reads _ ih =>
    intro p hp
    rcases List.mem_cons.mp hp with rfl | hp
    · exact ⟨false, stop, reads⟩
    · exact ih p hp

/-- What a run with the given prefix, written from `fp` on, asks of an entry. -/
def Entry.Within (stem : Bytes) (fp : Nat) : Entry → Prop
  | .term key _ => stem <+: key
  | .block b => stem.length < b.stem.length ∧ stem <+: b.stem ∧ b.fp < fp

/-- An entry within a run has the prefix of the run. -/
theorem Entry.Within.prefix_key {stem : Bytes} {fp : Nat} {e : Entry} (h : e.Within stem fp) :
    stem <+: e.key := by
  cases e with
  | term => exact h
  | block => exact h.2.1

/-- An entry within a run stays within it when the run lies further on. -/
theorem Entry.Within.mono {stem : Bytes} {fp fp' : Nat} {e : Entry} (h : e.Within stem fp)
    (hle : fp ≤ fp') : e.Within stem fp' := by
  cases e with
  | term => exact h
  | block => exact ⟨h.1, h.2.1, Nat.lt_of_lt_of_le h.2.2 hle⟩

theorem Entry.notBefore_none (depth : Nat) (e : Entry) : e.notBefore depth none = true := rfl

/-- An entry is not before its own byte. -/
theorem Entry.notBefore_lead (depth : Nat) (e : Entry) :
    e.notBefore depth (e.lead depth) = true := by
  rw [notBefore]
  cases e.lead depth with
  | none => rfl
  | some label => exact decide_eq_true (UInt8.le_refl label)

/-- A block of a run holds terms only, unless its plan says otherwise. -/
theorem BlockPlan.Takes.inside {plan : BlockPlan} {lead : Option UInt8} {count fp : Nat}
    {group : List Entry} {stem : Bytes} (h : plan.Takes lead count group)
    (hwithin : ∀ e ∈ group, e.Within stem fp) :
    ∀ e ∈ group, e.Inside stem (!plan.hasSubBlocks) fp := by
  intro e he
  have hin := hwithin e he
  cases e with
  | term => exact hin
  | block b =>
    refine ⟨?_, hin⟩
    rw [h.hasSubBlocks, Bool.not_eq_false', List.any_eq_true]
    exact ⟨_, he, rfl⟩

/-- A piece is written as its plan says. -/
theorem BlockPlan.Takes.written {plan : BlockPlan} {lead : Option UInt8} {count fp : Nat}
    {group : List Entry} {stem : Bytes} (h : plan.Takes lead count group) :
    WrittenBlock.ofPlan stem plan fp group = Piece.written stem count lead ⟨fp, group⟩ := by
  rw [WrittenBlock.ofPlan, Piece.written, h.isFloor, h.lead, h.hasTerms]
  rfl

/-- A piece that can be stored has entries that can be written. -/
theorem Piece.Storable.writable {hasFreqs : Bool} {plan : BlockPlan} {stem : Bytes} {fp : Nat}
    {group : List Entry} (h : Piece.Storable hasFreqs ⟨fp, group⟩)
    (hinside : ∀ e ∈ group, e.Inside stem (!plan.hasSubBlocks) fp) :
    ∀ e ∈ group, e.Writable (!plan.hasSubBlocks) hasFreqs fp := by
  intro e he
  have hin := hinside e he
  cases e with
  | term key state => exact h.recordable key state he
  | block b => exact ⟨hin.1, hin.2.2.2⟩

/-- The pieces of a run were written, from one emission to another. -/
structure Laid (hasFreqs : Bool) (depth : Nat) (out out' : Emission) (pieces : List Piece) :
    Prop where
  first : ∃ p rest, pieces = p :: rest ∧ p.fp = out.position
  inOrder : pieces.Pairwise (·.fp < ·.fp)
  before : ∀ p ∈ pieces, out.position ≤ p.fp ∧ p.fp < out'.position
  bytes : ∃ items, out'.items = out.items ++ items ∧
    out'.position = out.position + (Item.encodeAll items).length ∧
    (out'.position ≤ 2 ^ 64 → (∀ p ∈ pieces, p.Storable hasFreqs) →
      ∀ before after : Bytes, before.length = out.position →
        Chain (before ++ (Item.encodeAll items ++ after)) hasFreqs depth out.position pieces)

/-- One block of a run was written, from one emission to another. -/
structure LaidBlock (hasFreqs : Bool) (depth : Nat) (isLast : Bool) (out out' : Emission)
    (group : List Entry) : Prop where
  advances : out.position < out'.position
  bytes : ∃ items, out'.items = out.items ++ items ∧
    out'.position = out.position + (Item.encodeAll items).length ∧
    (out.position < 2 ^ 64 → Piece.Storable hasFreqs ⟨out.position, group⟩ →
      ∀ before after : Bytes, before.length = out.position →
        Block.Reads (before ++ (Item.encodeAll items ++ after)) hasFreqs out.position depth isLast
          group out'.position)

/-- The last block of a run is its last piece. -/
theorem LaidBlock.laid {hasFreqs : Bool} {depth : Nat} {out out' : Emission} {group : List Entry}
    (h : LaidBlock hasFreqs depth true out out' group) :
    Laid hasFreqs depth out out' [⟨out.position, group⟩] := by
  have hadvances := h.advances
  obtain ⟨items, hitems, hposition, hreads⟩ := h.bytes
  refine ⟨⟨_, [], rfl, rfl⟩, List.pairwise_singleton .., ?_, items, hitems, hposition, ?_⟩
  · intro p hp
    rw [List.mem_singleton.mp hp]
    exact ⟨Nat.le_refl _, hadvances⟩
  · intro hroom hstorable before after hbefore
    exact .last (hreads (by omega) (hstorable _ (List.mem_singleton.mpr rfl)) before after hbefore)

/-- A block in front of the others of its run. -/
theorem Laid.cons {hasFreqs : Bool} {depth : Nat} {out mid out' : Emission} {group : List Entry}
    {pieces : List Piece} (h' : Laid hasFreqs depth mid out' pieces)
    (h : LaidBlock hasFreqs depth false out mid group) :
    Laid hasFreqs depth out out' (⟨out.position, group⟩ :: pieces) := by
  have hadvances := h.advances
  obtain ⟨items, hitems, hposition, hreads⟩ := h.bytes
  obtain ⟨⟨p, rest, hpieces, hp⟩, hinOrder, hbefore, items', hitems', hposition', hchain⟩ := h'
  have hend : mid.position < out'.position := by
    have := hbefore p (hpieces ▸ List.mem_cons_self ..)
    omega
  refine ⟨⟨_, _, rfl, rfl⟩, ?inOrder, ?before, items ++ items', ?items, ?position, ?chain⟩
  case inOrder =>
    refine List.pairwise_cons.mpr ⟨fun q hq => ?_, hinOrder⟩
    have := hbefore q hq
    show out.position < q.fp
    omega
  case before =>
    intro q hq
    rcases List.mem_cons.mp hq with rfl | hq
    · exact ⟨Nat.le_refl _, Nat.lt_trans hadvances hend⟩
    · have := hbefore q hq
      omega
  case items => rw [hitems', hitems, List.append_assoc]
  case position =>
    rw [hposition', hposition, Item.encodeAll_append, List.length_append, Nat.add_assoc]
  case chain =>
    intro hroom hstorable before after hbefore'
    -- the others are after the block, and the block is before the others
    have hreads' := hreads (by omega) (hstorable _ (List.mem_cons_self ..)) before
      (Item.encodeAll items' ++ after) hbefore'
    have hchain' := hchain hroom (fun q hq => hstorable q (List.mem_cons_of_mem _ hq))
      (before ++ Item.encodeAll items) after (by rw [List.length_append]; omega)
    rw [Item.encodeAll_append, List.append_assoc]
    rw [List.append_assoc] at hchain'
    exact .more hreads' hchain'

variable {sizes : BlockSizes} {count : Nat} {stem : Bytes}

/-- A block is emitted for a piece of entries within the run. -/
theorem emitBlock_spec (hasFreqs : Bool) {plan : BlockPlan} {lead : Option UInt8}
    {group : List Entry} {out : Emission} (isLast : Bool) (h : plan.Takes lead count group)
    (hlead : ∀ e ∈ group, e.notBefore stem.length lead = true)
    (hwithin : ∀ e ∈ group, e.Within stem out.position) :
    ∃ out', Frontier.emitBlock hasFreqs stem plan group isLast out
        = .ok (Piece.written stem count lead ⟨out.position, group⟩) out' ∧
      LaidBlock hasFreqs stem.length isLast out out' group := by
  have hinside := h.inside hwithin
  obtain ⟨items, codec, hencode, hpos, hreads⟩ :=
    encodeBlock_spec out.codec hasFreqs isLast h.nonempty h.size.symm (h.lead.symm ▸ hlead) hinside
  refine ⟨⟨out.position + (Item.encodeAll items).length, codec, out.items ++ items⟩, ?_,
    Nat.lt_add_of_pos_right hpos, items, rfl, rfl, fun hfp hstorable before after hbefore => ?_⟩
  · rw [Frontier.emitBlock, hencode, h.written]
  · exact hreads hfp hstorable.load_lt (hstorable.writable hinside) before after hbefore

/-- **A run is written whole**, in the pieces that its plan says. -/
theorem emitRun_spec (hasFreqs : Bool) {lead : Option UInt8} {plans : List BlockPlan}
    {entries : List Entry} (h : Parts stem.length sizes count lead plans entries) :
    (∀ e ∈ entries, e.notBefore stem.length lead = true) →
    (entries.Pairwise fun x y => y.notBefore stem.length (x.lead stem.length) = true) →
    ∀ {out : Emission}, (∀ e ∈ entries, e.Within stem out.position) →
      ∃ pieces out', Frontier.emitRun hasFreqs stem plans entries out
          = .ok (Piece.writtenFrom stem count lead pieces) out' ∧
        pieces.map (·.entries) = BlockPlan.groups plans entries ∧
        Laid hasFreqs stem.length out out' pieces := by
  induction h with
  | @last lead plan group takes _ =>
    intro hlead _ out hwithin
    obtain ⟨out', hemit, hlaid⟩ := emitBlock_spec hasFreqs true takes hlead hwithin
    refine ⟨[⟨out.position, group⟩], out', ?_, ?_, hlaid.laid⟩
    · rw [Frontier.emitRun, takes.size, List.take_length]
      rw [bind_ok (show Frontier.emitBlock _ _ _ _ (List.isEmpty []) _ = _ from hemit),
        List.drop_length]
      rfl
    · rw [takes.groups_singleton]
      rfl
  | @cut lead plan plans group rest e takes _ _ _ others ih =>
    intro hlead hsorted out hwithin
    obtain ⟨-, hback, -⟩ := List.pairwise_append.mp hsorted
    -- the lead of the next block is that of its first entry, which is the least of the rest
    have hrest : ∀ x ∈ e :: rest, x.notBefore stem.length (e.lead stem.length) = true := by
      intro x hx
      rcases List.mem_cons.mp hx with rfl | hx
      · exact x.notBefore_lead _
      · exact (List.pairwise_cons.mp hback).1 x hx
    obtain ⟨mid, hemit, hlaid⟩ :=
      emitBlock_spec hasFreqs false takes (fun x hx => hlead x (List.mem_append_left _ hx))
        fun x hx => hwithin x (List.mem_append_left _ hx)
    obtain ⟨pieces, out', hothers, hgroups, hlaids⟩ :=
      ih hrest hback fun x hx => (hwithin x (List.mem_append_right _ hx)).mono
        (Nat.le_of_lt hlaid.advances)
    refine ⟨⟨out.position, group⟩ :: pieces, out', ?_, ?_, hlaids.cons hlaid⟩
    · -- the next block begins with the byte that its plan says, which is that of its first entry
      obtain ⟨p, pieces', rfl, -⟩ := hlaids.first
      obtain ⟨plan', plans', rfl⟩ := List.exists_cons_of_ne_nil others.plans_ne_nil
      have hlead' : p.lead stem.length = e.lead stem.length := by
        have hsize := others.size_pos plan' (List.mem_cons_self ..)
        rw [List.map_cons, BlockPlan.groups, List.cons.injEq] at hgroups
        rw [Piece.lead, hgroups.1, List.head?_take, if_neg (by omega)]
        rfl
      rw [Frontier.emitRun, takes.size, List.take_left, List.drop_left, List.isEmpty_cons,
        bind_ok hemit, bind_ok hothers]
      rw [Piece.writtenFrom, Piece.writtenFrom, List.map_cons, hlead']
      rfl
    · rw [List.map_cons, hgroups, takes.groups_append]

end Lexicon

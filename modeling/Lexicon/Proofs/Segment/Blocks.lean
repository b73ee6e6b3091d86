import Lexicon.Proofs.Block.Run
import Lexicon.Proofs.Segment.Bounds
import Lexicon.Proofs.Segment.Calls

/-!
# A block in its stream

One block is written behind whatever the stream holds, and read where it was written. The reader
gets the entries back as far as a block keeps them (`Entry.Shows`): without the prefix of the run,
and of a sub-block only where it starts.

> **`Writer.emitBlock_decode`** — what is written of a block is read back whole, by any codec, and
> the reader is then where the writer was.
-/

namespace Lexicon

/-- What a block keeps of an entry below the prefix of its run. -/
inductive Entry.Shows (stem : Bytes) : Entry → BlockEntry → Prop
  | term (suffix : Bytes) (state : TermState) :
      Shows stem (.term (stem ++ suffix) state) (.term suffix state)
  | block {b : SubBlock} {suffix : Bytes} (stem_eq : b.stem = stem ++ suffix) :
      Shows stem (.block b) (.block suffix b.fp)

/-- What the writer of a block may be given: a plan of these entries, which belong to the run. -/
structure BlockPlan.Covers (p : BlockPlan) (hasFreqs : Bool) (stem : Bytes) (fp : Nat)
    (entries : List Entry) : Prop where
  nonempty : entries ≠ []
  size : entries.length = p.size
  hasSubBlocks : ∀ e ∈ entries, e.isTerm = false → p.hasSubBlocks = true
  lead : ∀ label ∈ p.lead, ∀ e ∈ entries, ∃ b ∈ e.lead stem.length, label ≤ b
  within : ∀ e ∈ entries, e.Within stem fp
  checked : ∀ key state, .term key state ∈ entries →
    state.check hasFreqs = .ok () ∧ state.normalized hasFreqs = state

namespace Entry

/-- An entry in its normal form is seen as it was written. -/
theorem shows_seen {stem : Bytes} {hasFreqs : Bool} {fp : Nat} {e : Entry}
    (hwithin : e.Within stem fp)
    (hnormal : ∀ key state, e = .term key state → state.normalized hasFreqs = state) :
    e.Shows stem (e.seen stem.length hasFreqs) := by
  cases e with
  | term key state =>
    obtain ⟨suffix, rfl⟩ := hwithin
    rw [seen, hnormal _ state rfl, List.drop_left]
    exact .term suffix state
  | block b =>
    obtain ⟨suffix, hsuffix⟩ := hwithin.2.1
    rw [seen, ← hsuffix, List.drop_left]
    exact .block hsuffix.symm

end Entry

namespace BlockPlan.Covers

variable {p : BlockPlan} {hasFreqs : Bool} {stem : Bytes} {fp : Nat} {entries : List Entry}

/-- Entries that a plan covers may stand in its block. -/
theorem inside (h : p.Covers hasFreqs stem fp entries) :
    ∀ e ∈ entries, e.Inside stem (!p.hasSubBlocks) fp := by
  intro e he
  have hwithin := h.within e he
  cases e with
  | term key state => exact hwithin
  | block b =>
    refine ⟨?_, hwithin⟩
    rw [h.hasSubBlocks _ he rfl]
    rfl

/-- Entries that a plan covers are not before its byte. -/
theorem notBefore (h : p.Covers hasFreqs stem fp entries) :
    ∀ e ∈ entries, e.notBefore stem.length p.lead = true := by
  intro e he
  rw [Entry.notBefore, Option.all_eq_true]
  intro label hlabel
  obtain ⟨b, hb, hle⟩ := h.lead label hlabel e he
  rw [show e.lead stem.length = some b from hb]
  exact decide_eq_true hle

/-- Entries that a plan covers can be written. -/
theorem writable (h : p.Covers hasFreqs stem fp entries) :
    ∀ e ∈ entries, e.Writable (!p.hasSubBlocks) hasFreqs fp := by
  intro e he
  cases e with
  | term key state => exact recordable_of_check (h.checked key state he).1
  | block b =>
    obtain ⟨hleaf, -, -, hback⟩ := h.inside _ he
    exact ⟨hleaf, hback⟩

/-- Entries that a plan covers are seen as they were written. -/
theorem shows (h : p.Covers hasFreqs stem fp entries) :
    List.Forall₂ (Entry.Shows stem) entries (entries.map (Entry.seen stem.length hasFreqs)) := by
  rw [List.forall₂_map_right_iff, List.forall₂_same]
  intro e he
  exact Entry.shows_seen (h.within e he) fun key state heq => (h.checked key state (heq ▸ he)).2

end BlockPlan.Covers

namespace Writer

/-- **A block is read back from where it was written.** -/
theorem emitBlock_decode {w : Writer Memory} {before : Bytes} {hasFreqs : Bool} {stem : Bytes}
    {plan : BlockPlan} {entries : List Entry} (isLast : Bool) (hholds : w.terms.Holds before)
    (hcovers : plan.Covers hasFreqs stem before.length entries)
    (hfit : PartsFit hasFreqs stem.length (!plan.hasSubBlocks) before.length entries)
    (hroom : before.length < 2 ^ 64) :
    ∃ written w' bytes,
      emit (Frontier.emitBlock hasFreqs stem plan entries isLast) w = .ok written w' ∧
      w'.terms.Holds (before ++ bytes) ∧
      ∀ (after : Bytes) (codec : LongsCodec), ∃ b codec',
        Block.decode (before ++ bytes ++ after) hasFreqs written.fp codec = .ok b codec' ∧
        List.Forall₂ (Entry.Shows stem) entries b.entries ∧ b.isLast = isLast ∧
        b.isLeaf = !plan.hasSubBlocks ∧ b.stop = w'.terms.position := by
  have hposition := hholds.position
  obtain ⟨first, more, hlengths⟩ := List.exists_cons_of_ne_nil
    (lengthBytes_ne_nil stem.length (!plan.hasSubBlocks) before.length hcovers.nonempty)
  have hencode := encodeBlock_eq_ok w.codec hasFreqs isLast hcovers.size hcovers.notBefore
    hcovers.inside hlengths
  obtain ⟨terms', hitems, hholds'⟩ := Output.items_spec hholds (blockItems w.codec hasFreqs
    stem.length (!plan.hasSubBlocks) isLast entries first more)
  have hemit : emit (Frontier.emitBlock hasFreqs stem plan entries isLast) w
      = .ok (.ofPlan stem plan before.length entries)
        { w with terms := terms', codec := (longsItems w.codec true (termStates entries)).2 } := by
    rw [emit_eq]
    simp only [Frontier.emitBlock, hposition, hencode, List.nil_append, hitems]
  refine ⟨_, _, _, hemit, hholds', fun after codec => ?_⟩
  obtain ⟨compression, codec', hdecode⟩ := decode_blockItems w.codec isLast hcovers.nonempty hroom
    hfit hcovers.writable hlengths before after rfl codec
  rw [List.append_assoc]
  refine ⟨_, codec', hdecode, hcovers.shows, rfl, rfl, ?_⟩
  rw [hholds'.position, List.length_append]

/-- A stream that holds four bytes, with a codec that remembers a term. -/
def begun : Writer Memory where
  segment := { name := "_0", id := default }
  sizes := {}
  terms := ⟨"terms", { data := #[1, 2, 3, 4] }, ({} : Digest).update [1, 2, 3, 4]⟩
  index := ⟨"index", {}, {}⟩
  directory := ⟨"directory", {}, {}⟩
  codec := ⟨[7, 9]⟩

/-- The entries of a run below one byte: the byte itself as a term, a sub-block, and a term. -/
def mixed : List Entry :=
  [.term [97] ⟨⟨1, 1⟩, []⟩, .block ⟨[97, 98], 2, true, false, none, ⟨[], none, some [2], 1⟩⟩,
    .term [97, 99, 100] ⟨⟨2, 5⟩, [6, 3]⟩]

/-- The plan covers all three entries. -/
theorem covers_mixed :
    BlockPlan.Covers ⟨0, 3, none, false, true, true⟩ true [97] 4 mixed where
  nonempty := List.cons_ne_nil _ _
  size := rfl
  hasSubBlocks _ _ _ := rfl
  lead _ h := by cases h
  within := by simp [mixed, Entry.Within]
  checked key state h := by
    have hall : ∀ e ∈ termStates mixed, e.check true = .ok () ∧ e.normalized true = e := by decide
    exact hall state (List.mem_filterMap.mpr ⟨_, h, rfl⟩)

/-- The three entries are decoded behind the four bytes. -/
theorem emitBlock_decode_mixed :
    begun.terms.Holds [1, 2, 3, 4] ∧
      BlockPlan.Covers ⟨0, 3, none, false, true, true⟩ true [97] 4 mixed ∧
      PartsFit true 1 false 4 mixed ∧
      ∃ written w' bytes,
        emit (Frontier.emitBlock true [97] ⟨0, 3, none, false, true, true⟩ mixed true) begun
          = .ok written w' ∧
        w'.terms.Holds ([1, 2, 3, 4] ++ bytes) ∧
        ∀ (after : Bytes) (codec : LongsCodec), ∃ b codec',
          Block.decode ([1, 2, 3, 4] ++ bytes ++ after) true written.fp codec = .ok b codec' ∧
          List.Forall₂ (Entry.Shows [97]) mixed b.entries ∧ b.isLast = true ∧
          b.isLeaf = false ∧ b.stop = w'.terms.position := by
  have hholds : begun.terms.Holds [1, 2, 3, 4] := ⟨rfl, rfl, rfl, rfl⟩
  have hfit : PartsFit true 1 false 4 mixed := partsFit_of_load true 1 false 4 (by decide)
  exact ⟨hholds, covers_mixed, hfit, emitBlock_decode true hholds covers_mixed hfit (by decide)⟩

end Writer

end Lexicon

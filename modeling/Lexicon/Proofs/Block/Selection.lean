import Lexicon.Proofs.Block.Partition
import Mathlib.Data.List.Pairwise

/-!
# The block of a term

Where a run is cut is decided when it is written; in which of its blocks a term can be, when it is
looked up. All that goes from one to the other is the byte that each block but the first begins
with. Entries with the same byte are in one piece, and the bytes rise from piece to piece, so the
last piece that does not begin after a byte is the one with the entries of that byte
(`Sliced.select_spec`).

> **`select_planned`** — for every entry of a run, looking for its byte selects the block that was
> planned for it, whatever lies below the run.
-/

namespace Lexicon

/-! ## Selecting a piece -/

/-- An entry with a byte behind the prefix has the rank of this byte. -/
theorem Entry.rank_of_lead {e : Entry} {depth : Nat} {label : UInt8}
    (h : e.lead depth = some label) : e.rank depth = label.toNat + 1 := by
  rw [Entry.rank, h]
  rfl

namespace Sliced

variable {depth : Nat} {entries : List Entry} {p q : Piece} {rest : List Piece}

theorem tail (h : Sliced depth entries (q :: rest)) :
    Sliced depth (rest.flatMap (·.entries)) rest :=
  ⟨rfl, fun p hp => h.nonempty p (List.mem_cons_of_mem _ hp), (List.pairwise_cons.mp h.ranks).2⟩

/-- An entry is in the first piece or in a later one. -/
theorem mem_head_or_tail (h : Sliced depth entries (q :: rest)) {e : Entry} (he : e ∈ entries) :
    e ∈ q.entries ∨ e ∈ rest.flatMap (·.entries) := by
  rwa [← h.entries, List.flatMap_cons, List.mem_append] at he

/-- What is in the piece before sorts before the byte that a piece begins with. -/
theorem rank_lt_lead (h : Sliced depth entries (q :: p :: rest)) :
    ∀ e ∈ q.entries, e.rank depth < leadRank (p.lead depth) := by
  intro e he
  have hp : p ∈ p :: rest := List.mem_cons_self ..
  obtain ⟨x, hx, hrank⟩ := Piece.exists_rank_eq (h.tail.nonempty p hp) depth
  rw [hrank]
  exact (List.pairwise_cons.mp h.ranks).1 p hp e he x hx

/-- What is in the pieces from one on does not sort before the byte that this one begins with. -/
theorem lead_le_rank (h : Sliced depth entries (p :: rest))
    (hfirst : ∀ e ∈ p.entries, leadRank (p.lead depth) ≤ e.rank depth) :
    ∀ e ∈ entries, leadRank (p.lead depth) ≤ e.rank depth := by
  intro e he
  rcases h.mem_head_or_tail he with hmem | hmem
  · exact hfirst e hmem
  · obtain ⟨x, hx, hrank⟩ := Piece.exists_rank_eq (h.nonempty p (List.mem_cons_self ..)) depth
    obtain ⟨q, hq, heq⟩ := List.mem_flatMap.mp hmem
    rw [hrank]
    exact Nat.le_of_lt ((List.pairwise_cons.mp h.ranks).1 q hq x hx e heq)

end Sliced

/-- The siblings are searched for the last piece that does not begin after the byte. -/
theorem selectFrom_spec {depth : Nat} (label : UInt8) (rest : List Piece) :
    ∀ {q : Piece} {entries : List Entry}, Sliced depth entries (q :: rest) →
      (∀ p ∈ q :: rest, ∀ e ∈ p.entries, leadRank (p.lead depth) ≤ e.rank depth) →
      ∃ p ∈ q :: rest, Location.selectFrom (q.fp, q.hasTerms) label (rest.map (Piece.sibling depth))
          = (p.fp, p.hasTerms) ∧
        ∀ e ∈ entries, e.lead depth = some label → e ∈ p.entries := by
  induction rest with
  | nil =>
    intro q entries h _
    refine ⟨q, List.mem_cons_self .., rfl, fun e he _ => ?_⟩
    rwa [← h.entries, List.flatMap_singleton] at he
  | cons s rest ih =>
    intro q entries h hfirst
    obtain ⟨lab, hlab⟩ := h.exists_lead s (List.mem_cons_self ..)
    have hsib : (Piece.sibling depth s).lead = lab := by
      rw [Piece.sibling, hlab]
      rfl
    have hstart : leadRank (s.lead depth) = lab.toNat + 1 := by
      rw [hlab]
      rfl
    rw [List.map_cons, Location.selectFrom, hsib]
    by_cases hbefore : label < lab
    · -- what begins with the byte is before all that is in the other pieces
      refine ⟨q, List.mem_cons_self .., if_pos hbefore, fun e he hlead => ?_⟩
      refine (h.mem_head_or_tail he).resolve_right fun hmem => ?_
      have hle := h.tail.lead_le_rank (hfirst s (by simp)) e hmem
      rw [hstart, Entry.rank_of_lead hlead] at hle
      have := UInt8.lt_iff_toNat_lt.mp hbefore
      omega
    · -- all of this piece sorts before the next one, and so before the byte
      rw [if_neg hbefore]
      obtain ⟨p, hp, hselect, hall⟩ := ih h.tail fun p hp => hfirst p (List.mem_cons_of_mem _ hp)
      refine ⟨p, List.mem_cons_of_mem _ hp, hselect, fun e he hlead => hall e ?_ hlead⟩
      refine (h.mem_head_or_tail he).resolve_left fun hmem => ?_
      have hlt := h.rank_lt_lead e hmem
      rw [hstart, Entry.rank_of_lead hlead] at hlt
      have := UInt8.le_iff_toNat_le.mp (UInt8.not_lt.mp hbefore)
      omega

/-- In order, the first entry of a piece has the least byte. -/
theorem Piece.leadRank_le {depth : Nat} {p : Piece}
    (hsorted : p.entries.Pairwise fun x y => x.rank depth ≤ y.rank depth) :
    ∀ e ∈ p.entries, leadRank (p.lead depth) ≤ e.rank depth := by
  intro e he
  rw [Piece.lead]
  cases hentries : p.entries with
  | nil =>
    rw [hentries] at he
    simp at he
  | cons x rest =>
    rw [hentries] at he hsorted
    show x.rank depth ≤ _
    rcases List.mem_cons.mp he with rfl | he
    · exact Nat.le_refl _
    · exact (List.pairwise_cons.mp hsorted).1 e he

namespace Sliced

variable {depth : Nat} {entries : List Entry} {pieces : List Piece}

/-- No entry is in two pieces. -/
theorem eq_of_mem (h : Sliced depth entries pieces) {p q : Piece} {e : Entry} (hp : p ∈ pieces)
    (hq : q ∈ pieces) (hep : e ∈ p.entries) (heq : e ∈ q.entries) : p = q := by
  let R (p q : Piece) : Prop := ∀ e, e ∈ p.entries → e ∈ q.entries → p = q
  have : Std.Symm R := ⟨fun _ _ hpq e hq hp => (hpq e hp hq).symm⟩
  have hapart : pieces.Pairwise R :=
    h.ranks.imp fun hranks e hep heq => absurd (hranks e hep e heq) (Nat.lt_irrefl _)
  exact List.Pairwise.forall_of_forall (fun _ _ _ _ _ => rfl) hapart hp hq e hep heq

/-- **A byte tells the piece** in which the entries with that byte are. -/
theorem select_spec (h : Sliced depth entries pieces) (hne : pieces ≠ [])
    (hranks : entries.Pairwise fun x y => x.rank depth ≤ y.rank depth) (label : Option UInt8) :
    ∃ p ∈ pieces, (Piece.location depth entries.length pieces).select label = (p.fp, p.hasTerms) ∧
      ∀ e ∈ entries, e.lead depth = label → e ∈ p.entries := by
  have hfirst : ∀ p ∈ pieces, ∀ e ∈ p.entries, leadRank (p.lead depth) ≤ e.rank depth := by
    intro p hp
    refine Piece.leadRank_le (hranks.sublist ?_)
    rw [← h.entries, List.flatMap_def]
    exact List.sublist_flatten_of_mem (List.mem_map_of_mem hp)
  obtain ⟨q, rest, rfl⟩ := List.exists_cons_of_ne_nil hne
  cases label with
  | none =>
    -- an entry that is the prefix itself is the first of all
    refine ⟨q, List.mem_cons_self .., rfl, fun e he hlead => ?_⟩
    rw [← h.entries, List.flatMap_cons] at he
    refine (List.mem_append.mp he).resolve_right fun hmem => ?_
    obtain ⟨p, hp, hep⟩ := List.mem_flatMap.mp hmem
    obtain ⟨x, hx⟩ := List.exists_mem_of_ne_nil _ (h.nonempty q (List.mem_cons_self ..))
    have hlt := (List.pairwise_cons.mp h.ranks).1 p hp x hx e hep
    rw [Entry.rank, Entry.rank, hlead] at hlt
    exact absurd hlt (Nat.not_lt_zero _)
  | some label => exact selectFrom_spec label rest h hfirst

/-- The byte of an entry tells the piece that it is in. -/
theorem select_lead (h : Sliced depth entries pieces)
    (hranks : entries.Pairwise fun x y => x.rank depth ≤ y.rank depth) {p : Piece} (hp : p ∈ pieces)
    {e : Entry} (he : e ∈ p.entries) :
    (Piece.location depth entries.length pieces).select (e.lead depth) = (p.fp, p.hasTerms) := by
  obtain ⟨q, hq, hselect, hall⟩ := h.select_spec (List.ne_nil_of_mem hp) hranks (e.lead depth)
  have hmem : e ∈ entries := by
    rw [← h.entries]
    exact List.mem_flatMap.mpr ⟨p, hp, he⟩
  rwa [h.eq_of_mem hp hq he (hall e hmem rfl)]

end Sliced

/-! ## Planned blocks -/

section

variable {stem : Bytes} {sizes : BlockSizes} {entries : List Entry} {plans : List BlockPlan}
  {offsets : List Nat}

/-- The pieces that plans cut entries into, if their blocks start at these places. -/
def plannedPieces (entries : List Entry) (plans : List BlockPlan) (offsets : List Nat) :
    List Piece := (plans.zip offsets).map fun x => ⟨x.2, x.1.slice entries⟩

/-- What is left to index of the blocks that plans cut entries into, if they start at these
places. -/
def plannedBlocks (stem : Bytes) (entries : List Entry) (plans : List BlockPlan)
    (offsets : List Nat) : List WrittenBlock :=
  (plans.zip offsets).map fun x => .ofPlan stem x.1 x.2 (x.1.slice entries)

/-- The pieces have the entries that were planned for them. -/
theorem plannedPieces_entries (entries : List Entry) (hcount : offsets.length = plans.length) :
    (plannedPieces entries plans offsets).map (·.entries) = plans.map (·.slice entries) := by
  rw [plannedPieces, List.map_map]
  conv_rhs => rw [← List.map_fst_zip (Nat.le_of_eq hcount.symm), List.map_map]
  rfl

/-- The pieces are where they were written. -/
theorem plannedPieces_fps (entries : List Entry) (hcount : offsets.length = plans.length) :
    (plannedPieces entries plans offsets).map (·.fp) = offsets := by
  rw [plannedPieces, List.map_map]
  exact List.map_snd_zip (Nat.le_of_eq hcount)

/-- Each plan has its piece. -/
theorem mem_plannedPieces {k fp : Nat} {plan : BlockPlan} (hplan : plans[k]? = some plan)
    (hfp : offsets[k]? = some fp) :
    (⟨fp, plan.slice entries⟩ : Piece) ∈ plannedPieces entries plans offsets := by
  have hmem : (plan, fp) ∈ plans.zip offsets :=
    List.mem_of_getElem? (List.getElem?_zip_eq_some.mpr ⟨hplan, hfp⟩)
  exact List.mem_map.mpr ⟨_, hmem, rfl⟩

/-- Pieces written one after the other are at rising offsets. -/
theorem rising_planned (entries : List Entry) (hcount : offsets.length = plans.length)
    (hrising : offsets.Pairwise (· < ·)) :
    (plannedPieces entries plans offsets).Pairwise (·.fp < ·.fp) := by
  rwa [← plannedPieces_fps entries hcount, List.pairwise_map] at hrising

/-- Pieces are as near as their offsets are. -/
theorem near_planned (entries : List Entry) (hcount : offsets.length = plans.length)
    (hnear : ∀ fp ∈ offsets, fp < 2 ^ 62) :
    ∀ p ∈ plannedPieces entries plans offsets, p.fp < 2 ^ 62 := by
  intro p hp
  refine hnear p.fp ?_
  rw [← plannedPieces_fps entries hcount]
  exact List.mem_map_of_mem hp

/-- What is left of a planned block is what is left of its piece. -/
theorem BlockPlan.Takes.ofPlan {plan : BlockPlan} {lead : Option UInt8} {count : Nat}
    {group : List Entry} (h : plan.Takes lead count group) (fp : Nat) :
    WrittenBlock.ofPlan stem plan fp group = Piece.written stem count plan.lead ⟨fp, group⟩ := by
  rw [h.written, h.lead]

section

variable (hmin : 0 < sizes.min) (hne : entries ≠ [])

include hmin hne

/-- Planned pieces slice the entries. -/
theorem sliced_planned (depth : Nat)
    (hsorted : entries.Pairwise fun x y => x.rank depth ≤ y.rank depth)
    (hcount : offsets.length = (planBlocks depth sizes entries).length) :
    Sliced depth entries
      (plannedPieces entries (planBlocks depth sizes entries) offsets) := by
  have hparts : Parts depth sizes entries.length none _ entries := planBlocks_spec hmin hne
  refine hparts.sliced ?_ hsorted
  rw [plannedPieces_entries entries hcount, planBlocks_groups depth hmin hne]

/-- There is a piece for entries of any number. -/
theorem plannedPieces_ne_nil (depth : Nat)
    (hcount : offsets.length = (planBlocks depth sizes entries).length) :
    plannedPieces entries (planBlocks depth sizes entries) offsets ≠ [] := by
  have hparts : Parts depth sizes entries.length none _ entries := planBlocks_spec hmin hne
  have hentries := plannedPieces_entries entries hcount
  intro hnil
  rw [hnil, List.map_nil] at hentries
  exact hparts.plans_ne_nil (List.map_eq_nil_iff.mp hentries.symm)

/-- The blocks that were planned are those of the pieces. -/
theorem plannedBlocks_eq (stem : Bytes) (offsets : List Nat) :
    plannedBlocks stem entries (planBlocks stem.length sizes entries) offsets
      = Piece.writtenFrom stem entries.length none
        (plannedPieces entries (planBlocks stem.length sizes entries) offsets) := by
  have hparts : Parts stem.length sizes entries.length none _ entries := planBlocks_spec hmin hne
  have htakes := planBlocks_takes stem.length hmin hne
  have hlater := planBlocks_later stem.length hmin hne
  have hfirst := hparts.head_lead
  generalize planBlocks stem.length sizes entries = plans at htakes hlater hfirst
  cases plans with
  | nil => rfl
  | cons p plans =>
    cases offsets with
    | nil => rfl
    | cons fp offsets =>
      rw [plannedBlocks, plannedPieces, List.zip_cons_cons, List.map_cons, List.map_cons,
        Piece.writtenFrom, List.map_map]
      obtain ⟨_, hp⟩ := htakes p (List.mem_cons_self ..)
      congr 1
      · rw [hp.ofPlan, hfirst p rfl]
      · -- each of the others begins with the byte of its first entry, as its plan says
        refine List.map_congr_left fun x hx => ?_
        have hmem := (List.of_mem_zip hx).1
        obtain ⟨_, hq⟩ := htakes x.1 (List.mem_cons_of_mem _ hmem)
        obtain ⟨e, he, hlead⟩ := hlater x.1 hmem
        have hpiece : Piece.lead stem.length ⟨x.2, x.1.slice entries⟩ = x.1.lead := by
          rw [Piece.lead, he, hlead]
          rfl
        rw [hq.ofPlan, ← hpiece]
        rfl

end

end

/-- **The byte of an entry selects the block that was planned for it**, and what the index stores of
the run is enough to do so. -/
theorem select_planned (stem : Bytes) (sizes : BlockSizes) {entries : List Entry}
    {offsets : List Nat} (hmin : 1 ≤ sizes.min) (hne : entries ≠ [])
    (hsorted : entries.Pairwise fun x y =>
      leadRank (x.lead stem.length) ≤ leadRank (y.lead stem.length))
    (hcount : offsets.length = (planBlocks stem.length sizes entries).length)
    (hrising : offsets.Pairwise (· < ·)) (hnear : ∀ fp ∈ offsets, fp < 2 ^ 62) :
    ∃ first rest,
      plannedBlocks stem entries (planBlocks stem.length sizes entries) offsets = first :: rest ∧
      compileIndex (first :: rest)
        = first.asRun (WrittenBlock.location first rest) (subIndexes entries) ∧
      Location.decode (WrittenBlock.location first rest).encode
        = .ok (WrittenBlock.location first rest) ∧
      ∀ (k : Nat) (plan : BlockPlan) (fp : Nat),
        (planBlocks stem.length sizes entries)[k]? = some plan → offsets[k]? = some fp →
        ∀ e ∈ plan.slice entries,
          (WrittenBlock.location first rest).select (e.lead stem.length) = (fp, plan.hasTerms) := by
  have htakes := planBlocks_takes stem.length hmin hne
  have hblocks := plannedBlocks_eq hmin hne stem offsets
  have hsliced := sliced_planned hmin hne stem.length hsorted hcount
  have hfps := rising_planned entries hcount hrising
  have hstorable := location_storable hsliced
    (plannedPieces_ne_nil hmin hne stem.length hcount) hfps (near_planned entries hcount hnear)
  have hmem := fun k plan fp => @mem_plannedPieces entries
    (planBlocks stem.length sizes entries) offsets k fp plan
  obtain ⟨p, rest, hpieces⟩ := List.exists_cons_of_ne_nil
    (plannedPieces_ne_nil hmin hne stem.length hcount)
  rw [hpieces] at hblocks hsliced hfps hstorable hmem
  have hbelow := flatMap_subIndexes stem entries.length none (p :: rest)
  rw [hsliced.entries] at hbelow
  rw [Piece.writtenFrom] at hblocks hbelow
  refine ⟨_, _, hblocks, ?_, ?_, fun k plan fp hplan hfp e he => ?_⟩
  · rw [WrittenBlock.compileIndex_eq (hsliced.rowed hfps), hbelow]
  · rw [Piece.location_written]
    exact Location.decode_encode hstorable
  · obtain ⟨_, htake⟩ := htakes plan (List.mem_of_getElem? hplan)
    rw [Piece.location_written, hsliced.select_lead hsorted (hmem k plan fp hplan hfp) he,
      htake.hasTerms]
    rfl

/-- Three blocks of two entries or one. -/
theorem select_planned_sample :
    1 ≤ (BlockSizes.mk 2 2).min ∧ splitSample ≠ [] ∧
      (splitSample.Pairwise fun x y => leadRank (x.lead 1) ≤ leadRank (y.lead 1)) ∧
      [10, 20, 35].length = (planBlocks 1 ⟨2, 2⟩ splitSample).length ∧
      [10, 20, 35].Pairwise (· < ·) ∧ (∀ fp ∈ [10, 20, 35], fp < 2 ^ 62) ∧
      ∃ l : Location, Location.decode l.encode = .ok l ∧
        ∀ e ∈ (BlockPlan.mk 4 6 (some 99) true true true).slice splitSample,
          l.select (e.lead 1) = (20, true) := by
  have hne : splitSample ≠ [] := List.cons_ne_nil _ _
  have hsorted : splitSample.Pairwise fun x y => leadRank (x.lead 1) ≤ leadRank (y.lead 1) := by
    decide
  have hcount : [10, 20, 35].length = (planBlocks 1 ⟨2, 2⟩ splitSample).length := by decide
  have hrising : [10, 20, 35].Pairwise (· < ·) := by decide
  have hnear : ∀ fp ∈ [10, 20, 35], fp < 2 ^ 62 := by decide
  obtain ⟨first, rest, -, -, hdecode, hselect⟩ :=
    select_planned [97] ⟨2, 2⟩ (by decide) hne hsorted hcount hrising hnear
  refine ⟨by decide, hne, hsorted, hcount, hrising, hnear, _, hdecode, ?_⟩
  exact hselect 1 ⟨4, 6, some 99, true, true, true⟩ 20 (by decide) (by decide)

end Lexicon

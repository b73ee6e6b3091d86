import Lexicon.Proofs.Block.Extents
import Lexicon.Proofs.Block.Index
import Mathlib.Data.List.MinMax

/-!
# The plans of a run

What the plans of a run say by themselves, without the run being written: which entries each of them
covers, where it may end, and that its byte and its flags are those of these entries (`Splits`).

The row behind a plan (`BlockPlan.groups`) is counted off the entries by the sizes of the plans
before it. A plan names its row by two ends, and since the plans lie end to end these are the same
entries (`groups_eq_map_slice`); so all that is known of the rows holds of what the plans name.

> **`planBlocks_splits`** — the entries of a run, in the order of the bytes after its prefix, are
> split without gap or overlap, and never between two entries with the same byte.
-/

namespace Lexicon

/-- The entries that a planned block covers. -/
def BlockPlan.slice (p : BlockPlan) (entries : List Entry) : List Entry :=
  (entries.drop p.start).take p.size

/-- How many entries share the byte after the prefix that the most of them have. -/
def widest (depth : Nat) (entries : List Entry) : Nat :=
  (entries.map fun x => (entries.filter fun e => e.lead depth = x.lead depth).length).foldr max 0

/-- The plans split the entries, which share `depth` bytes. -/
structure Splits (depth : Nat) (sizes : BlockSizes) (entries : List Entry)
    (plans : List BlockPlan) : Prop where
  nonempty : plans ≠ []
  tiles : Tiles 0 (plans.map fun p => (p.start, p.stop)) entries.length
  apart : plans.Pairwise fun p q =>
    ∀ x ∈ p.slice entries, ∀ y ∈ q.slice entries, x.lead depth ≠ y.lead depth
  first : ∀ p ∈ plans.head?, p.lead = none
  later : ∀ p ∈ plans.tail, ∃ e label,
    entries[p.start]? = some e ∧ e.lead depth = some label ∧ p.lead = some label
  rising : plans.tail.Pairwise fun p q => ∀ a ∈ p.lead, ∀ b ∈ q.lead, a < b
  enough : ∀ p ∈ plans.dropLast, sizes.min ≤ p.size
  single : entries.length ≤ sizes.max → plans.length = 1
  bounded : ∀ p ∈ plans, p.size ≤ max sizes.max (sizes.min - 1 + widest depth entries)
  isFloor : ∀ p ∈ plans, p.isFloor = decide (2 ≤ plans.length)
  hasTerms : ∀ p ∈ plans, p.hasTerms = (p.slice entries).any Entry.isTerm
  hasSubBlocks : ∀ p ∈ plans, p.hasSubBlocks = (p.slice entries).any (!·.isTerm)

variable {depth : Nat} {sizes : BlockSizes} {count : Nat}

/-! ## Plans lie end to end -/

/-- Blocks that are planned from some place tile the rest. -/
theorem tiles_planFrom (hmin : 0 < sizes.min) (rest : List Entry) :
    ∀ {place : Nat} {last : Option UInt8} {p : BlockPlan},
      p.start ≤ place → count = place + rest.length → p.start < count →
      Tiles p.start ((planFrom depth sizes count place last p rest).map fun q => (q.start, q.stop))
        count := by
  induction rest with
  | nil =>
    intro place last p _ hcount hpos
    rw [planFrom, if_pos hpos]
    exact .cons hpos (.nil _)
  | cons e rest ih =>
    intro place last p hplace hcount hpos
    rw [List.length_cons] at hcount
    rw [planFrom]
    split
    next hcut =>
      refine .cons (show p.start < place by omega) ?_
      exact ih (p := (BlockPlan.opened place (e.lead depth)).take e) (Nat.le_succ _) (by omega)
        (show place < count by omega)
    next => exact ih (p := p.take e) (Nat.le_succ_of_le hplace) (by omega) hpos

/-- The rows that plans take are the entries that the plans cover. -/
theorem groups_eq_map_slice {entries : List Entry} (plans : List BlockPlan) :
    ∀ {start : Nat}, Tiles start (plans.map fun p => (p.start, p.stop)) entries.length →
      BlockPlan.groups plans (entries.drop start) = plans.map (·.slice entries) := by
  induction plans with
  | nil => exact fun _ => rfl
  | cons p plans ih =>
    intro start h
    obtain ⟨rfl, hproper, hothers⟩ := h.cons_inv
    have hstop : p.start + p.size = p.stop := Nat.add_sub_cancel' (Nat.le_of_lt hproper)
    rw [BlockPlan.groups, List.map_cons, List.drop_drop, hstop, ih hothers, BlockPlan.slice]

/-- A row that fits one block is not split. -/
theorem length_planFrom_le_one (rest : List Entry) :
    ∀ {place : Nat} {last : Option UInt8} {p : BlockPlan}, count - p.start ≤ sizes.max →
      (planFrom depth sizes count place last p rest).length ≤ 1 := by
  induction rest with
  | nil =>
    intro place last p _
    rw [planFrom]
    split <;> simp
  | cons e rest ih =>
    intro place last p hfits
    rw [planFrom, if_neg (by omega)]
    exact ih (p := p.take e) hfits

/-! ## What plans say of their rows -/

namespace Parts

variable {lead : Option UInt8} {plans : List BlockPlan} {entries : List Entry}

/-- The first plan has the byte that the row was opened with. -/
theorem head_lead (h : Parts depth sizes count lead plans entries) :
    ∀ p ∈ plans.head?, p.lead = lead := by
  cases h with
  | last takes _ => simpa using takes.lead
  | cut takes _ _ _ _ => simpa using takes.lead

/-- Every later plan has the byte of its first entry. -/
theorem tail_lead (h : Parts depth sizes count lead plans entries) :
    List.Forall₂ (fun p group => ∃ e ∈ group.head?, p.lead = e.lead depth) plans.tail
      (BlockPlan.groups plans entries).tail := by
  induction h with
  | last takes _ =>
    rw [takes.groups_singleton]
    exact .nil
  | @cut lead plan plans group rest e takes _ _ _ others ih =>
    rw [takes.groups_append]
    obtain ⟨p, plans, rfl⟩ := List.exists_cons_of_ne_nil others.plans_ne_nil
    refine .cons ⟨e, ?_, others.head_lead p rfl⟩ ih
    obtain ⟨k, hk⟩ := Nat.exists_eq_succ_of_ne_zero
      (Nat.ne_of_gt (others.size_pos p (List.mem_cons_self ..)))
    rw [hk]
    rfl

end Parts

/-! ## The widest byte -/

/-- No byte has more entries than the widest. -/
theorem length_filter_le_widest (depth : Nat) (entries : List Entry) (label : Option UInt8) :
    (entries.filter fun e => e.lead depth = label).length ≤ widest depth entries := by
  by_cases hx : ∃ x ∈ entries, x.lead depth = label
  · obtain ⟨x, hx, rfl⟩ := hx
    exact List.le_max_of_le' 0 (List.mem_map.mpr ⟨x, hx, rfl⟩) (Nat.le_refl _)
  · have hnone : entries.filter (fun e => e.lead depth = label) = [] := by
      rw [List.filter_eq_nil_iff]
      intro e he heq
      exact hx ⟨e, he, by simpa using heq⟩
    rw [hnone]
    exact Nat.zero_le _

/-! ## The whole run -/

/-- The first entry of a block is the one at its start. -/
theorem BlockPlan.head?_slice {p : BlockPlan} {entries : List Entry} (hpos : 0 < p.size) :
    (p.slice entries).head? = entries[p.start]? := by
  rw [slice, List.head?_take, if_neg (Nat.ne_of_gt hpos), List.head?_drop]

section

variable (depth) {entries : List Entry}

/-- The planned blocks tile the entries. -/
theorem planBlocks_tiles (hmin : 0 < sizes.min) (hne : entries ≠ []) :
    Tiles 0 ((planBlocks depth sizes entries).map fun p => (p.start, p.stop)) entries.length :=
  tiles_planFrom hmin entries (p := .opened 0 none) (Nat.le_refl _) (Nat.zero_add _).symm
    (List.length_pos_iff.mpr hne)

/-- The groups are the slices of the plans. -/
theorem planBlocks_groups (hmin : 0 < sizes.min) (hne : entries ≠ []) :
    BlockPlan.groups (planBlocks depth sizes entries) entries =
      (planBlocks depth sizes entries).map (·.slice entries) :=
  groups_eq_map_slice _ (planBlocks_tiles depth hmin hne)

/-- Each plan takes its slice. -/
theorem planBlocks_takes (hmin : 0 < sizes.min) (hne : entries ≠ []) :
    ∀ p ∈ planBlocks depth sizes entries,
      ∃ lead, p.Takes lead entries.length (p.slice entries) := by
  have hparts : Parts depth sizes entries.length none _ entries := planBlocks_spec hmin hne
  have h := hparts.takes
  rw [planBlocks_groups depth hmin hne, List.forall₂_map_right_iff, List.forall₂_same] at h
  exact h

/-- Later blocks have the byte of their first entry. -/
theorem planBlocks_later (hmin : 0 < sizes.min) (hne : entries ≠ []) :
    ∀ p ∈ (planBlocks depth sizes entries).tail,
      ∃ e ∈ (p.slice entries).head?, p.lead = e.lead depth := by
  have hparts : Parts depth sizes entries.length none _ entries := planBlocks_spec hmin hne
  have h := hparts.tail_lead
  rw [planBlocks_groups depth hmin hne, ← List.map_tail, List.forall₂_map_right_iff,
    List.forall₂_same] at h
  exact h

/-- Bytes rise from one plan to the next. -/
theorem planBlocks_ranks (hmin : 0 < sizes.min) (hne : entries ≠ [])
    (hsorted : entries.Pairwise fun x y => x.rank depth ≤ y.rank depth) :
    (planBlocks depth sizes entries).Pairwise fun p q =>
      ∀ x ∈ p.slice entries, ∀ y ∈ q.slice entries, x.rank depth < y.rank depth := by
  have h := (planBlocks_spec hmin hne).pairwise_rank hsorted
  rw [planBlocks_groups depth hmin hne, List.pairwise_map] at h
  exact h

/-- A rank above zero is that of a byte. -/
theorem exists_of_leadRank_pos {lead : Option UInt8} (h : 0 < leadRank lead) :
    ∃ label, lead = some label := by
  cases lead with
  | none => exact absurd h (Nat.lt_irrefl 0)
  | some label => exact ⟨label, rfl⟩

/-- The entries of later plans have a byte. -/
theorem planBlocks_rank_pos (hmin : 0 < sizes.min) (hne : entries ≠ [])
    (hsorted : entries.Pairwise fun x y => x.rank depth ≤ y.rank depth) :
    ∀ p ∈ (planBlocks depth sizes entries).tail, ∀ y ∈ p.slice entries, 0 < y.rank depth := by
  have htakes := planBlocks_takes depth hmin hne
  have hranks := planBlocks_ranks depth hmin hne hsorted
  have hparts : Parts depth sizes entries.length none _ entries := planBlocks_spec hmin hne
  obtain ⟨q, plans, hplans⟩ := List.exists_cons_of_ne_nil hparts.plans_ne_nil
  rw [hplans] at htakes hranks ⊢
  obtain ⟨lead, hq⟩ := htakes q (List.mem_cons_self ..)
  obtain ⟨x, hx⟩ := List.exists_mem_of_ne_nil _ hq.nonempty
  intro p hp y hy
  exact Nat.lt_of_le_of_lt (Nat.zero_le _) ((List.pairwise_cons.mp hranks).1 p hp x hx y hy)

/-- A plan is that of one of several blocks if it leaves entries out. -/
theorem planBlocks_size_lt (hmin : 0 < sizes.min) (hne : entries ≠ []) :
    ∀ p ∈ planBlocks depth sizes entries,
      p.size < entries.length ↔ 2 ≤ (planBlocks depth sizes entries).length := by
  have htiles := planBlocks_tiles depth hmin hne
  intro p hp
  by_cases htwo : 2 ≤ (planBlocks depth sizes entries).length
  · have hlt := htiles.length_lt (by rwa [List.length_map]) _ (List.mem_map_of_mem hp)
    exact ⟨fun _ => htwo, fun _ => hlt⟩
  · -- the only plan reaches from end to end
    have hpos := List.length_pos_of_mem hp
    obtain ⟨q, hq⟩ := List.length_eq_one_iff.mp (Nat.le_antisymm (Nat.le_of_not_lt htwo) hpos)
    rw [hq] at hp htiles ⊢
    obtain rfl := List.mem_singleton.mp hp
    obtain ⟨hstart, -, hothers⟩ := htiles.cons_inv
    have hstop := hothers.nil_inv
    simp only at hstart hstop
    simp only [List.length_singleton, BlockPlan.size]
    omega

end

/-- **The plans of a run split its entries.** -/
theorem planBlocks_splits {depth : Nat} {sizes : BlockSizes} {entries : List Entry}
    (hmin : 1 ≤ sizes.min) (hne : entries ≠ [])
    (hsorted : entries.Pairwise fun x y => leadRank (x.lead depth) ≤ leadRank (y.lead depth)) :
    Splits depth sizes entries (planBlocks depth sizes entries) := by
  have hparts : Parts depth sizes entries.length none _ entries := planBlocks_spec hmin hne
  have hgroups := planBlocks_groups depth hmin hne
  have htakes := planBlocks_takes depth hmin hne
  have hranks := planBlocks_ranks depth hmin hne hsorted
  have hlater := planBlocks_later depth hmin hne
  have hsize : ∀ p ∈ planBlocks depth sizes entries, p.size = (p.slice entries).length :=
    fun p hp => (htakes p hp).choose_spec.size
  refine ⟨hparts.plans_ne_nil, planBlocks_tiles depth hmin hne, ?apart, hparts.head_lead, ?later,
    ?rising, ?enough, ?single, ?bounded, ?isFloor, ?hasTerms, ?hasSubBlocks⟩
  case apart =>
    exact hranks.imp fun h x hx y hy heq => Nat.ne_of_lt (h x hx y hy) (congrArg leadRank heq)
  case later =>
    intro p hp
    obtain ⟨e, he, hlead⟩ := hlater p hp
    have hmem := List.mem_of_mem_tail hp
    obtain ⟨label, hlabel⟩ := exists_of_leadRank_pos
      (planBlocks_rank_pos depth hmin hne hsorted p hp e (List.mem_of_mem_head? he))
    rw [BlockPlan.head?_slice (hparts.size_pos p hmem)] at he
    exact ⟨e, label, he, hlabel, hlead.trans hlabel⟩
  case rising =>
    refine hranks.tail.imp_of_mem fun {p q} hp hq h a ha b hb => ?_
    obtain ⟨x, hx, hxlead⟩ := hlater p hp
    obtain ⟨y, hy, hylead⟩ := hlater q hq
    have hlt := h x (List.mem_of_mem_head? hx) y (List.mem_of_mem_head? hy)
    rw [Entry.rank, Entry.rank, ← hxlead, ← hylead, ha, hb] at hlt
    exact UInt8.lt_iff_toNat_lt.mpr (Nat.lt_of_succ_lt_succ hlt)
  case enough =>
    intro p hp
    rw [hsize p (List.dropLast_subset _ hp)]
    refine hparts.min_le _ ?_
    rw [hgroups, ← List.map_dropLast]
    exact List.mem_map_of_mem hp
  case single =>
    intro hfits
    have hle : (planBlocks depth sizes entries).length ≤ 1 :=
      length_planFrom_le_one entries (p := .opened 0 none) hfits
    have hpos := List.length_pos_iff.mpr hparts.plans_ne_nil
    exact Nat.le_antisymm hle hpos
  case bounded =>
    intro p hp
    rw [hsize p hp]
    refine hparts.length_le_max (length_filter_le_widest depth entries) _ ?_
    rw [hgroups]
    exact List.mem_map_of_mem hp
  case isFloor =>
    intro p hp
    obtain ⟨lead, h⟩ := htakes p hp
    rw [h.isFloor, ← h.size]
    exact decide_eq_decide.mpr (planBlocks_size_lt depth hmin hne p hp)
  case hasTerms =>
    exact fun p hp => (htakes p hp).choose_spec.hasTerms
  case hasSubBlocks =>
    exact fun p hp => (htakes p hp).choose_spec.hasSubBlocks

/-- A run below one byte: the prefix itself is a term, three terms share a byte, and a block of a
longer prefix stands among the terms. -/
def splitSample : List Entry :=
  [.term [97] ⟨⟨1, 1⟩, []⟩, .term [97, 98] ⟨⟨2, 5⟩, [8]⟩, .term [97, 98, 1] ⟨⟨1, 1⟩, []⟩,
    .term [97, 98, 2] ⟨⟨1, 1⟩, []⟩,
    .block ⟨[97, 99], 40, true, false, none, ⟨[], none, some [40], 1⟩⟩,
    .term [97, 100] ⟨⟨1, 1⟩, []⟩, .term [97, 101] ⟨⟨3, 3⟩, [7, 9]⟩]

theorem planBlocks_splits_sample :
    1 ≤ (BlockSizes.mk 2 2).min ∧ splitSample ≠ [] ∧
      (splitSample.Pairwise fun x y => leadRank (x.lead 1) ≤ leadRank (y.lead 1)) ∧
      planBlocks 1 ⟨2, 2⟩ splitSample =
        [⟨0, 4, none, true, true, false⟩, ⟨4, 6, some 99, true, true, true⟩,
          ⟨6, 7, some 101, true, true, false⟩] ∧
      Splits 1 ⟨2, 2⟩ splitSample (planBlocks 1 ⟨2, 2⟩ splitSample) := by
  have hne : splitSample ≠ [] := List.cons_ne_nil _ _
  have hsorted : splitSample.Pairwise fun x y => leadRank (x.lead 1) ≤ leadRank (y.lead 1) := by
    decide
  exact ⟨by decide, hne, hsorted, by decide, planBlocks_splits (by decide) hne hsorted⟩

end Lexicon

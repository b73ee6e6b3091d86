import Lexicon.Block.Plan
import Lexicon.Proofs.Pairing

/-!
# How a run is split

`planBlocks_spec`: the planned blocks take the entries of the run in order, and end only where the
byte after the prefix changes (`Parts`). Every block but the last has enough entries, and each flag
of a plan says what its block holds.

A block can be longer than the largest size only by entries that share that byte. Where no byte has
`sizes.min` entries, the sizes leave room for all of them:

> **`Parts.length_le`** — no block is larger than the largest size.
-/

namespace Lexicon

/-- The entries that planned blocks take, one row for each. -/
def BlockPlan.groups : List BlockPlan → List Entry → List (List Entry)
  | [], _ => []
  | p :: plans, entries => entries.take p.size :: groups plans (entries.drop p.size)

/-- The plan is that of a block of `count` entries in all of its run, which takes this row. -/
structure BlockPlan.Takes (p : BlockPlan) (lead : Option UInt8) (count : Nat)
    (group : List Entry) : Prop where
  nonempty : group ≠ []
  size : p.size = group.length
  lead : p.lead = lead
  isFloor : p.isFloor = decide (group.length < count)
  hasTerms : p.hasTerms = group.any Entry.isTerm
  hasSubBlocks : p.hasSubBlocks = group.any (!·.isTerm)

namespace BlockPlan.Takes

variable {p : BlockPlan} {lead : Option UInt8} {count : Nat} {group : List Entry}

/-- The first plan takes the first group. -/
theorem groups_append (h : p.Takes lead count group) (plans : List BlockPlan)
    (rest : List Entry) :
    BlockPlan.groups (p :: plans) (group ++ rest) = group :: BlockPlan.groups plans rest := by
  rw [BlockPlan.groups, h.size, List.take_left, List.drop_left]

/-- One plan takes all. -/
theorem groups_singleton (h : p.Takes lead count group) :
    BlockPlan.groups [p] group = [group] := by
  have := h.groups_append [] []
  rwa [List.append_nil] at this

end BlockPlan.Takes

/-- The byte after the prefix changes only where the row was not yet long enough to end. -/
def Uncut (depth : Nat) (sizes : BlockSizes) (group : List Entry) : Prop :=
  ∀ a x y b, group = a ++ x :: y :: b → x.lead depth ≠ y.lead depth → a.length + 1 < sizes.min

/-- The plans take the entries in order, from a block on that begins with the given byte. -/
inductive Parts (depth : Nat) (sizes : BlockSizes) (count : Nat) :
    Option UInt8 → List BlockPlan → List Entry → Prop
  | last {lead : Option UInt8} {plan : BlockPlan} {group : List Entry}
      (takes : plan.Takes lead count group)
      (greedy : sizes.max < group.length → Uncut depth sizes group) :
      Parts depth sizes count lead [plan] group
  | cut {lead : Option UInt8} {plan : BlockPlan} {plans : List BlockPlan} {group rest : List Entry}
      {e : Entry} (takes : plan.Takes lead count group) (greedy : Uncut depth sizes group)
      (enough : sizes.min ≤ group.length)
      (parting : ∀ x ∈ group.getLast?, x.lead depth ≠ e.lead depth)
      (others : Parts depth sizes count (e.lead depth) plans (e :: rest)) :
      Parts depth sizes count lead (plan :: plans) (group ++ e :: rest)

variable {depth : Nat} {sizes : BlockSizes} {count : Nat}

/-- The plan of a block that is still open and has taken this row. -/
structure BlockPlan.Opened (p : BlockPlan) (place : Nat) (taken : List Entry) : Prop where
  place : place = p.start + taken.length
  hasTerms : p.hasTerms = taken.any Entry.isTerm
  hasSubBlocks : p.hasSubBlocks = taken.any (!·.isTerm)

/-- An open block takes one more entry. -/
theorem BlockPlan.Opened.take {p : BlockPlan} {place : Nat} {taken : List Entry}
    (h : p.Opened place taken) (e : Entry) : (p.take e).Opened (place + 1) (taken ++ [e]) := by
  refine ⟨?_, ?_, ?_⟩
  · rw [h.place, List.length_append]
    rfl
  · rw [BlockPlan.take, h.hasTerms, List.any_append]
    simp
  · rw [BlockPlan.take, h.hasSubBlocks, List.any_append]
    simp

/-- An open block that took something can be ended. -/
theorem BlockPlan.Opened.ended {p : BlockPlan} {place : Nat} {taken : List Entry}
    (h : p.Opened place taken) (hne : taken ≠ []) :
    (p.ended place count).Takes p.lead count taken := by
  have hlength : place - p.start = taken.length := by
    rw [h.place]
    omega
  refine ⟨hne, hlength, rfl, ?_, h.hasTerms, h.hasSubBlocks⟩
  rw [BlockPlan.ended, hlength]

/-- One entry is not cut. -/
theorem uncut_singleton (e : Entry) : Uncut depth sizes [e] := by
  intro a x y b h
  have := congrArg List.length h
  simp at this
  omega

/-- An entry more keeps a row uncut if the byte stays, or if the row was too short to end. -/
theorem Uncut.concat {taken : List Entry} {e : Entry} (h : Uncut depth sizes taken)
    (hlast : ∀ x ∈ taken.getLast?, x.lead depth ≠ e.lead depth → taken.length < sizes.min) :
    Uncut depth sizes (taken ++ [e]) := by
  intro a x y b heq hne
  rcases List.eq_nil_or_concat b with rfl | ⟨b, z, rfl⟩
  · have heq' : taken ++ [e] = (a ++ [x]) ++ [y] := by rw [heq]; simp
    obtain ⟨rfl, hy⟩ := List.append_inj' heq' rfl
    obtain rfl := List.singleton_inj.mp hy
    have := hlast x (by simp) hne
    rw [List.length_append] at this
    exact this
  · have heq' : taken ++ [e] = (a ++ x :: y :: b) ++ [z] := by rw [heq]; simp
    obtain ⟨rfl, -⟩ := List.append_inj' heq' rfl
    exact h a x y b rfl hne

/-- The blocks that are planned from some place take the entries from there. -/
theorem planFrom_spec (hmin : 0 < sizes.min) (rest : List Entry) :
    ∀ {place : Nat} {last : Option UInt8} {p : BlockPlan} {taken : List Entry},
      p.Opened place taken → (taken ≠ [] ∨ rest ≠ []) →
      (∀ x ∈ taken.getLast?, x.lead depth = last) →
      count = place + rest.length →
      (sizes.max < taken.length + rest.length → Uncut depth sizes taken) →
      Parts depth sizes count p.lead (planFrom depth sizes count place last p rest)
        (taken ++ rest) := by
  induction rest with
  | nil =>
    intro place last p taken hopen hne _ hcount huncut
    have htaken : taken ≠ [] := by simpa using hne
    have hpos := List.length_pos_iff.mpr htaken
    have hplace := hopen.place
    rw [List.length_nil, Nat.add_zero] at hcount
    subst hcount
    rw [planFrom, if_pos (by omega), List.append_nil]
    exact .last (hopen.ended htaken) huncut
  | cons e rest ih =>
    intro place last p taken hopen _ hlast hcount huncut
    have hplace := hopen.place
    rw [List.length_cons] at hcount huncut
    rw [planFrom]
    split
    next hcut =>
      -- the block ends here, and the entry opens the next
      obtain ⟨hlead, henough, hcrowded⟩ := hcut
      have htaken : taken ≠ [] := by
        rintro rfl
        rw [List.length_nil] at hplace
        omega
      refine .cut (hopen.ended htaken) (huncut (by omega)) (by omega) ?_ ?_
      · intro x hx
        rw [hlast x hx]
        exact Ne.symm hlead
      · have hnew : (BlockPlan.opened place (e.lead depth)).Opened place [] := ⟨rfl, rfl, rfl⟩
        exact ih (hnew.take e) (.inl (by simp)) (by simp) (by omega) fun _ => uncut_singleton e
    next hstay =>
      have happend : taken ++ e :: rest = taken ++ [e] ++ rest := by simp
      rw [happend]
      refine ih (p := p.take e) (hopen.take e) (.inl (by simp)) (by simp) (by omega) ?_
      intro hcrowded
      rw [List.length_append, List.length_singleton] at hcrowded
      refine (huncut (by omega)).concat fun x hx hne => ?_
      -- The block could have ended here, so it was too short.
      have hlead : e.lead depth ≠ last := by
        rw [← hlast x hx]
        exact Ne.symm hne
      by_cases henough : sizes.min ≤ taken.length
      · exact absurd ⟨hlead, by omega, by omega⟩ hstay
      · omega

/-- **The planned blocks take the entries of a run**, the first beginning with no byte. -/
theorem planBlocks_spec {entries : List Entry} (hmin : 0 < sizes.min) (hne : entries ≠ []) :
    Parts depth sizes entries.length none (planBlocks depth sizes entries) entries := by
  have hopen : (BlockPlan.opened 0 none).Opened 0 [] := ⟨rfl, rfl, rfl⟩
  exact planFrom_spec hmin entries hopen (.inr hne) (by simp) (by omega) fun _ a x y b h => by
    simp at h

namespace Parts

variable {lead : Option UInt8} {plans : List BlockPlan} {entries : List Entry}

/-- Entries of any number are in a block at least. -/
theorem plans_ne_nil (h : Parts depth sizes count lead plans entries) : plans ≠ [] := by
  cases h <;> simp

/-- Each plan takes its row. -/
theorem takes (h : Parts depth sizes count lead plans entries) :
    List.Forall₂ (fun p group => ∃ lead, p.Takes lead count group) plans
      (BlockPlan.groups plans entries) := by
  induction h with
  | last takes _ =>
    rw [takes.groups_singleton]
    exact .cons ⟨_, takes⟩ .nil
  | cut takes _ _ _ _ ih =>
    rw [takes.groups_append]
    exact .cons ⟨_, takes⟩ ih

/-- A planned block has an entry at least. -/
theorem size_pos (h : Parts depth sizes count lead plans entries) : ∀ p ∈ plans, 0 < p.size := by
  intro p hp
  obtain ⟨group, -, _, takes⟩ := h.takes.exists_right hp
  rw [takes.size]
  exact List.length_pos_iff.mpr takes.nonempty

/-- A group has an entry at least. -/
theorem groups_nonempty (h : Parts depth sizes count lead plans entries) :
    ∀ g ∈ BlockPlan.groups plans entries, g ≠ [] := by
  intro g hg
  obtain ⟨_, -, _, takes⟩ := h.takes.exists_left hg
  exact takes.nonempty

/-- The rows are the entries. -/
theorem flatten_groups (h : Parts depth sizes count lead plans entries) :
    (BlockPlan.groups plans entries).flatten = entries := by
  induction h with
  | last takes _ =>
    rw [takes.groups_singleton, List.flatten_singleton]
  | cut takes _ _ _ _ ih =>
    rw [takes.groups_append, List.flatten_cons, ih]

/-- Every block but the last has enough entries. -/
theorem min_le (h : Parts depth sizes count lead plans entries) :
    ∀ group ∈ (BlockPlan.groups plans entries).dropLast, sizes.min ≤ group.length := by
  induction h with
  | last => simp [BlockPlan.groups]
  | @cut lead plan plans group rest e takes _ enough _ others ih =>
    intro g hg
    obtain ⟨plan', plans', rfl⟩ := List.exists_cons_of_ne_nil others.plans_ne_nil
    rw [takes.groups_append, BlockPlan.groups, List.dropLast_cons_cons] at hg
    rcases List.mem_cons.mp hg with rfl | hg
    · exact enough
    · exact ih g hg

/-- The last entries of a row share a byte, back to where it changes or to the start. -/
theorem exists_last_lead (depth : Nat) : ∀ group : List Entry, group ≠ [] →
    ∃ a b label, group = a ++ b ∧ (∀ e ∈ b, e.lead depth = label) ∧
      (a = [] ∨ ∃ c x y d, a = c ++ [x] ∧ b = y :: d ∧ x.lead depth ≠ y.lead depth) := by
  intro group
  induction group with
  | nil => intro h; exact absurd rfl h
  | cons e group ih =>
    intro _
    cases group with
    | nil => exact ⟨[], [e], e.lead depth, rfl, by simp, .inl rfl⟩
    | cons f group =>
      obtain ⟨a, b, label, hab, hb, hcases⟩ := ih (by simp)
      rcases hcases with rfl | ⟨c, x, y, d, rfl, rfl, hne⟩
      · -- all of the rest shares a byte, which is that of its first entry
        rw [List.nil_append] at hab
        subst hab
        by_cases hsame : e.lead depth = f.lead depth
        · refine ⟨[], e :: f :: group, label, rfl, ?_, .inl rfl⟩
          intro g hg
          rcases List.mem_cons.mp hg with rfl | hg
          · rw [hsame]
            exact hb f (List.mem_cons_self ..)
          · exact hb g hg
        · exact ⟨[e], f :: group, label, rfl, hb, .inr ⟨[], e, f, group, rfl, rfl, hsame⟩⟩
      · exact ⟨e :: (c ++ [x]), y :: d, label, by rw [hab]; rfl, hb,
          .inr ⟨e :: c, x, y, d, rfl, rfl, hne⟩⟩

/-- A row that could not end is too short for a block up to its last byte, which `few` entries have
at most. -/
theorem length_le_of_uncut {group : List Entry} {few : Nat}
    (hfew : ∀ label : Option UInt8, (group.filter fun e => e.lead depth = label).length ≤ few)
    (huncut : Uncut depth sizes group) : group.length ≤ sizes.min - 1 + few := by
  by_cases hne : group = []
  · subst hne
    exact Nat.zero_le _
  -- the last entries share a byte; those before them end before the row is long enough
  obtain ⟨a, b, label, rfl, hb, hcases⟩ := exists_last_lead depth group hne
  have hlast : b.length ≤ few := by
    refine Nat.le_trans ?_ (hfew label)
    rw [List.filter_append, List.length_append]
    have hall : b.filter (fun e => e.lead depth = label) = b := by
      rw [List.filter_eq_self]
      intro e he
      simpa using hb e he
    rw [hall]
    exact Nat.le_add_left ..
  rw [List.length_append]
  rcases hcases with rfl | ⟨c, x, y, d, rfl, rfl, hparts⟩
  · rw [List.length_nil]
    omega
  · have := huncut c x y d (by simp) hparts
    rw [List.length_append, List.length_singleton]
    omega

/-- A block that is larger than the largest size is so by entries of one byte. -/
theorem length_le_max (h : Parts depth sizes count lead plans entries) {few : Nat}
    (hfew : ∀ label : Option UInt8, (entries.filter fun e => e.lead depth = label).length ≤ few) :
    ∀ group ∈ BlockPlan.groups plans entries,
      group.length ≤ max sizes.max (sizes.min - 1 + few) := by
  induction h with
  | last takes greedy =>
    intro g hg
    rw [takes.groups_singleton, List.mem_singleton] at hg
    subst hg
    by_cases hle : g.length ≤ sizes.max
    · omega
    · -- too many for one block, so it would have been cut wherever it could
      have := length_le_of_uncut hfew (greedy (by omega))
      omega
  | @cut lead plan plans group rest e takes greedy _ _ _ ih =>
    simp only [List.filter_append, List.length_append] at hfew
    intro g hg
    rw [takes.groups_append] at hg
    rcases List.mem_cons.mp hg with rfl | hg
    · have := length_le_of_uncut
        (fun label => Nat.le_trans (Nat.le_add_right ..) (hfew label)) greedy
      omega
    · exact ih (fun label => Nat.le_trans (Nat.le_add_left ..) (hfew label)) g hg

/-- **No block is larger than the largest size** where no byte has `sizes.min` entries. -/
theorem length_le (h : Parts depth sizes count lead plans entries)
    (hroom : 2 * (sizes.min - 1) ≤ sizes.max)
    (hfew : ∀ label : Option UInt8,
      (entries.filter fun e => e.lead depth = label).length < sizes.min) :
    ∀ group ∈ BlockPlan.groups plans entries, group.length ≤ sizes.max := by
  intro g hg
  have := h.length_le_max (fun label => Nat.le_sub_one_of_lt (hfew label)) g hg
  omega

end Parts

end Lexicon

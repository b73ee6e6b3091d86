import Lexicon.Proofs.Block.Emission

/-!
# Where blocks lie

A block reaches from its start to the place that a reader is at when it has read it. The blocks of
an emission are written back to back, so each begins where the one before it ends (`Tiles`), and
nothing of what was emitted is left over.

> **`Emits.occupies`** — the blocks of all runs that were emitted lie one after the other, from
> where the emission was before to where it is then, wherever its items come to stand.

Nothing is said here of how a run was planned: that a block was encoded at all is enough to know
that it is read back (`encodeBlock_inversion`).
-/

namespace Lexicon

/-! ## Extents one after the other -/

/-- These extents reach from one place to another, one after the other. -/
inductive Tiles : Nat → List (Nat × Nat) → Nat → Prop
  | nil (n : Nat) : Tiles n [] n
  | cons {start mid stop : Nat} {rest : List (Nat × Nat)} (proper : start < mid)
      (others : Tiles mid rest stop) : Tiles start ((start, mid) :: rest) stop

namespace Tiles

variable {start mid stop : Nat} {extents extents' : List (Nat × Nat)}

/-- No extents tile nothing. -/
theorem nil_inv (h : Tiles start [] stop) : start = stop := by
  cases h
  rfl

/-- The first extent begins at the start, and the others follow it. -/
theorem cons_inv {x : Nat × Nat} (h : Tiles start (x :: extents) stop) :
    x.1 = start ∧ start < x.2 ∧ Tiles x.2 extents stop := by
  cases h with
  | cons proper others => exact ⟨rfl, proper, others⟩

/-- Extents that follow each other tile what both tile. -/
theorem append (h : Tiles start extents mid) (h' : Tiles mid extents' stop) :
    Tiles start (extents ++ extents') stop := by
  induction h with
  | nil => exact h'
  | cons proper _ ih => exact .cons proper (ih h')

/-- Extents that tile a range are within it. -/
theorem within (h : Tiles start extents stop) :
    start ≤ stop ∧ ∀ x ∈ extents, start ≤ x.1 ∧ x.1 < x.2 ∧ x.2 ≤ stop := by
  induction h with
  | nil n => exact ⟨Nat.le_refl n, by simp⟩
  | @cons start mid stop rest proper _ ih =>
    obtain ⟨hle, hrest⟩ := ih
    refine ⟨by omega, fun x hx => ?_⟩
    rcases List.mem_cons.mp hx with rfl | hx
    · exact ⟨Nat.le_refl _, proper, hle⟩
    · have := hrest x hx
      omega

/-- One of several extents does not reach from end to end. -/
theorem length_lt (h : Tiles start extents stop) (htwo : 2 ≤ extents.length) :
    ∀ x ∈ extents, x.2 - x.1 < stop - start := by
  match extents, htwo with
  | x :: y :: extents, _ =>
    obtain ⟨hstart, hproper, hothers⟩ := h.cons_inv
    have hrest := hothers.within.2
    have hnext := hrest y (List.mem_cons_self ..)
    intro z hz
    rcases List.mem_cons.mp hz with rfl | hz
    · omega
    · have := hrest z hz
      omega

/-- A later extent starts where an earlier one ends, or behind it. -/
theorem ordered (h : Tiles start extents stop) : extents.Pairwise fun x y => x.2 ≤ y.1 := by
  induction h with
  | nil => exact .nil
  | cons _ others ih => exact List.pairwise_cons.mpr ⟨fun y hy => (others.within.2 y hy).1, ih⟩

/-- Each place of a tiled range is in an extent. -/
theorem covers (h : Tiles start extents stop) (n : Nat) :
    (start ≤ n ∧ n < stop) ↔ ∃ x ∈ extents, x.1 ≤ n ∧ n < x.2 := by
  induction h with
  | nil => simp
  | @cons start mid stop rest proper others ih =>
    have hle := others.within.1
    rw [List.exists_mem_cons_iff, ← ih]
    by_cases hn : n < mid
    · exact ⟨fun h => .inl ⟨h.1, hn⟩, fun _ => by omega⟩
    · refine ⟨fun h => .inr (by omega), fun h => ?_⟩
      rcases h with h | h
      · exact absurd h.2 hn
      · omega

end Tiles

/-- Every place from one to before another is in exactly one of these extents, and no other place is
in any. -/
structure Partitions (extents : List (Nat × Nat)) (start stop : Nat) : Prop where
  nodup : (extents.map (·.1)).Nodup
  apart : extents.Pairwise fun x y => x.2 ≤ y.1 ∨ y.2 ≤ x.1
  covers : ∀ n, (start ≤ n ∧ n < stop) ↔ ∃ x ∈ extents, x.1 ≤ n ∧ n < x.2

/-- Extents that tile a range partition it. -/
theorem Tiles.partitions {start stop : Nat} {extents : List (Nat × Nat)}
    (h : Tiles start extents stop) : Partitions extents start stop := by
  refine ⟨?_, h.ordered.imp Or.inl, h.covers⟩
  refine List.pairwise_map.mpr (h.ordered.imp_of_mem fun {x y} hx _ hle heq => ?_)
  have := h.within.2 x hx
  omega

/-- In another order extents partition the same. -/
theorem Partitions.perm {start stop : Nat} {extents extents' : List (Nat × Nat)}
    (h : Partitions extents start stop) (hperm : extents.Perm extents') :
    Partitions extents' start stop := by
  refine ⟨(hperm.map _).nodup_iff.mp h.nodup, ?_, fun n => ?_⟩
  · exact (hperm.pairwise_iff fun hxy => hxy.symm).mp h.apart
  · rw [h.covers n]
    exact ⟨fun ⟨x, hx, hn⟩ => ⟨x, hperm.mem_iff.mp hx, hn⟩,
      fun ⟨x, hx, hn⟩ => ⟨x, hperm.mem_iff.mpr hx, hn⟩⟩

/-! ## What was encoded is read back -/

/-- Every codec reads the block at the start of the extent up to its end. -/
def Block.Fills (terms : Bytes) (hasFreqs : Bool) (x : Nat × Nat) : Prop :=
  ∀ codec, ∃ b codec', Block.decode terms hasFreqs x.1 codec = .ok b codec' ∧ b.stop = x.2

/-- An entry that passes its check may stand in the block. -/
theorem Entry.inside_of_checkIn {stem : Bytes} {leaf : Bool} {fp : Nat} {e : Entry}
    (h : e.checkIn stem leaf fp = .ok ()) : e.Inside stem leaf fp := by
  cases e with
  | term key state =>
    rw [checkIn] at h
    split at h
    next hpre => exact List.isPrefixOf_iff_prefix.mp hpre
    next => cases h
  | block b =>
    rw [checkIn] at h
    split at h
    next => cases h
    next hleaf =>
      split at h
      next => cases h
      next hwithin =>
        rw [not_not, List.isPrefixOf_iff_prefix] at hwithin
        split at h
        next => cases h
        next hback =>
          exact ⟨Bool.eq_false_iff.mpr hleaf, hwithin.1, hwithin.2, Nat.lt_of_not_le hback⟩

/-- Entries that pass their check may stand in the block. -/
theorem inside_of_forM_checkIn {stem : Bytes} {leaf : Bool} {fp : Nat} {entries : List Entry}
    (h : entries.forM (Entry.checkIn stem leaf fp) = .ok ()) :
    ∀ e ∈ entries, e.Inside stem leaf fp := by
  induction entries with
  | nil => simp
  | cons e entries ih =>
    obtain ⟨_, hfirst, hrest⟩ := of_bind_eq_ok h
    exact List.forall_mem_cons.mpr ⟨Entry.inside_of_checkIn hfirst, ih hrest⟩

/-- **A block that is encoded has entries that belong into it.** -/
theorem encodeBlock_inversion {codec codec' : LongsCodec} {hasFreqs : Bool} {stem : Bytes}
    {plan : BlockPlan} {fp : Nat} {entries : List Entry} {isLast : Bool} {items : List Item}
    {written : WrittenBlock}
    (h : encodeBlock codec hasFreqs stem plan fp entries isLast = .ok (items, written, codec')) :
    written.fp = fp ∧ (∀ e ∈ entries, e.Inside stem (!plan.hasSubBlocks) fp) ∧
      ∃ first more, lengthBytes stem.length (!plan.hasSubBlocks) fp entries = first :: more ∧
        items = blockItems codec hasFreqs stem.length (!plan.hasSubBlocks) isLast entries first
          more := by
  by_cases hsize : entries.length = plan.size
  case neg =>
    rw [encodeBlock, if_pos hsize] at h
    cases h
  by_cases hlead : entries.all (Entry.notBefore stem.length plan.lead) = true
  case neg =>
    rw [encodeBlock, if_neg (not_not.mpr hsize), if_pos (by simpa using hlead)] at h
    cases h
  cases hforM : entries.forM (Entry.checkIn stem (!plan.hasSubBlocks) fp) with
  | error e =>
    rw [encodeBlock, if_neg (not_not.mpr hsize), if_neg (by simp [hlead]), hforM] at h
    cases h
  | ok =>
    have hinside := inside_of_forM_checkIn hforM
    cases hlengths : lengthBytes stem.length (!plan.hasSubBlocks) fp entries with
    | nil =>
      rw [encodeBlock, if_neg (not_not.mpr hsize), if_neg (by simp [hlead]), hforM] at h
      simp only [hlengths] at h
      cases h
    | cons first more =>
      rw [encodeBlock_eq_ok codec hasFreqs isLast hsize (List.all_eq_true.mp hlead) hinside
        hlengths] at h
      cases h
      exact ⟨rfl, hinside, first, more, rfl, rfl⟩

/-! ## What was emitted lies back to back -/

/-- The blocks of these pieces were emitted one after the other, with nothing before, between or
behind them. -/
def Occupies (hasFreqs : Bool) (out out' : Emission) (pieces : List Piece) : Prop :=
  ∃ items extents, out'.items = out.items ++ items ∧
    out'.position = out.position + (Item.encodeAll items).length ∧
    extents.map (·.1) = pieces.map (·.fp) ∧ Tiles out.position extents out'.position ∧
    (out'.position ≤ 2 ^ 64 → (∀ p ∈ pieces, p.Storable hasFreqs) →
      ∀ before after : Bytes, before.length = out.position → ∀ x ∈ extents,
        Block.Fills (before ++ (Item.encodeAll items ++ after)) hasFreqs x)

namespace Occupies

variable {hasFreqs : Bool} {out mid out' : Emission} {pieces pieces' : List Piece}

/-- An emission that is left alone has no blocks. -/
theorem refl (out : Emission) : Occupies hasFreqs out out [] :=
  ⟨[], [], (List.append_nil _).symm, rfl, rfl, .nil _, fun _ _ _ _ _ => by simp⟩

/-- Blocks of one emission after the other lie one after the other. -/
theorem trans (h : Occupies hasFreqs out mid pieces) (h' : Occupies hasFreqs mid out' pieces') :
    Occupies hasFreqs out out' (pieces ++ pieces') := by
  obtain ⟨items, extents, hitems, hposition, hstarts, htiles, hfills⟩ := h
  obtain ⟨items', extents', hitems', hposition', hstarts', htiles', hfills'⟩ := h'
  refine ⟨items ++ items', extents ++ extents', ?_, ?_, ?_, htiles.append htiles', ?_⟩
  · rw [hitems', hitems, List.append_assoc]
  · rw [hposition', hposition, Item.encodeAll_append, List.length_append, Nat.add_assoc]
  · rw [List.map_append, List.map_append, hstarts, hstarts']
  · intro hroom hstorable before after hbefore x hx
    obtain ⟨hstorable, hstorable'⟩ := List.forall_mem_append.mp hstorable
    have hle := htiles'.within.1
    rw [Item.encodeAll_append, List.append_assoc]
    rcases List.mem_append.mp hx with hx | hx
    · exact hfills (by omega) hstorable before _ hbefore x hx
    · rw [← List.append_assoc]
      exact hfills' hroom hstorable' _ after (by rw [List.length_append]; omega) x hx

end Occupies

/-- One block lies where it was emitted. -/
theorem emitBlock_occupies {hasFreqs : Bool} {stem : Bytes} {plan : BlockPlan}
    {group : List Entry} {isLast : Bool} {out out' : Emission} {written : WrittenBlock}
    (hne : group ≠ [])
    (h : Frontier.emitBlock hasFreqs stem plan group isLast out = .ok written out') :
    written.fp = out.position ∧ Occupies hasFreqs out out' [⟨out.position, group⟩] := by
  unfold Frontier.emitBlock at h
  split at h
  next => cases h
  next items written' codec hencode =>
    cases h
    obtain ⟨hfp, hinside, first, more, hlengths, rfl⟩ := encodeBlock_inversion hencode
    have hpos := length_blockItems_pos out.codec hasFreqs stem.length (!plan.hasSubBlocks) isLast
      group first more
    refine ⟨hfp, _, _, rfl, rfl, rfl, .cons (Nat.lt_add_of_pos_right hpos) (.nil _), ?_⟩
    intro hroom hstorable before after hbefore x hx codec
    obtain rfl := List.mem_singleton.mp hx
    have hstored := hstorable _ (List.mem_singleton.mpr rfl)
    obtain ⟨b, codec', hdecode, -, -, hstop⟩ := reads_blockItems out.codec isLast hne
      (Nat.lt_of_lt_of_le (Nat.lt_add_of_pos_right hpos) hroom) hstored.load_lt
      (hstored.writable hinside) hlengths before after hbefore codec
    exact ⟨b, codec', hdecode, hstop⟩

/-- **The blocks of a run lie one after the other.** -/
theorem emitRun_occupies {hasFreqs : Bool} {stem : Bytes} (plans : List BlockPlan) :
    ∀ {entries : List Entry} {pieces : List Piece} {out out' : Emission}
      {written : List WrittenBlock},
      Frontier.emitRun hasFreqs stem plans entries out = .ok written out' →
      pieces.map (·.entries) = BlockPlan.groups plans entries →
      (∀ p ∈ pieces, p.entries ≠ []) → written.map (·.fp) = pieces.map (·.fp) →
      Occupies hasFreqs out out' pieces := by
  induction plans with
  | nil =>
    intro entries pieces out out' written h hgroups _ _
    obtain rfl := List.map_eq_nil_iff.mp hgroups
    rw [Frontier.emitRun] at h
    split at h <;> cases h
    exact .refl out
  | cons plan plans ih =>
    intro entries pieces out out' written h hgroups hne hfps
    obtain ⟨block, mid, hblock, h⟩ := exists_of_bind_ok h
    obtain ⟨blocks, out₁, hothers, h⟩ := exists_of_bind_ok h
    cases h
    cases pieces with
    | nil => cases hgroups
    | cons p pieces =>
      rw [List.map_cons, BlockPlan.groups, List.cons.injEq] at hgroups
      rw [List.map_cons, List.map_cons, List.cons.injEq] at hfps
      obtain ⟨hgroup, hgroups⟩ := hgroups
      obtain ⟨hfp, hfps⟩ := hfps
      obtain ⟨hfirst, hne⟩ := List.forall_mem_cons.mp hne
      rw [← hgroup] at hblock
      obtain ⟨hposition, hoccupies⟩ := emitBlock_occupies hfirst hblock
      have hp : p = ⟨out.position, p.entries⟩ := by
        rw [← hposition, hfp]
      rw [← hp] at hoccupies
      exact hoccupies.trans (ih hothers hgroups hne hfps)

/-- Blocks are written where their pieces are. -/
theorem map_fp_writtenFrom (stem : Bytes) (count : Nat) (lead : Option UInt8)
    (pieces : List Piece) :
    (Piece.writtenFrom stem count lead pieces).map (·.fp) = pieces.map (·.fp) := by
  cases pieces with
  | nil => rfl
  | cons p pieces =>
    rw [Piece.writtenFrom, List.map_cons, List.map_cons, List.map_map]
    rfl

/-- **The blocks of all runs that were emitted lie one after the other.** -/
theorem Emits.occupies {sizes : BlockSizes} {hasFreqs : Bool} {out out' : Emission}
    {runs : List Run} (h : Emits sizes hasFreqs out runs out') :
    (∀ r ∈ runs, ∀ p ∈ r.pieces, p.entries ≠ []) →
      Occupies hasFreqs out out' (runs.flatMap (·.pieces)) := by
  induction h with
  | nil out => exact fun _ => .refl out
  | cons first _ ih =>
    intro hne
    obtain ⟨hfirst, hothers⟩ := List.forall_mem_cons.mp hne
    rw [List.flatMap_cons]
    exact (emitRun_occupies _ first.written first.pieces hfirst (map_fp_writtenFrom ..)).trans
      (ih hothers)

end Lexicon

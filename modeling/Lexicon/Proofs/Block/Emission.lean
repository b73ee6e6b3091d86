import Lexicon.Proofs.Block.Tree

/-!
# What is emitted

An emission consists of whole runs, each written by `emitRun` as it is planned: `Emits` says which.
`Steps` adds what every such emission keeps to: it only appends, and the blocks of its runs are
within their bounds. A computation that `Leads` somewhere does so whatever happens; it can fail only
where the terms leave no room for the index (`Room`).

`writeRun_spec` is the one place where blocks come from. It needs of the entries only what
`Run.Sound` says of them, and gives back all of it.
-/

namespace Lexicon

/-- The run was emitted as it is planned. -/
structure Run.Emitted (sizes : BlockSizes) (hasFreqs : Bool) (r : Run) (out out' : Emission) :
    Prop where
  written : Frontier.emitRun hasFreqs r.stem (planBlocks r.stem.length sizes r.entries) r.entries
    out = .ok (Piece.writtenFrom r.stem r.entries.length none r.pieces) out'
  pieces : r.pieces.map (·.entries)
    = BlockPlan.groups (planBlocks r.stem.length sizes r.entries) r.entries

/-- These runs were emitted, one after the other. -/
inductive Emits (sizes : BlockSizes) (hasFreqs : Bool) : Emission → List Run → Emission → Prop
  | nil (out : Emission) : Emits sizes hasFreqs out [] out
  | cons {out mid out' : Emission} {r : Run} {runs : List Run}
      (first : r.Emitted sizes hasFreqs out mid) (others : Emits sizes hasFreqs mid runs out') :
      Emits sizes hasFreqs out (r :: runs) out'

/-- Runs that were emitted one after the other were emitted. -/
theorem Emits.append {sizes : BlockSizes} {hasFreqs : Bool} {out mid out' : Emission}
    {runs runs' : List Run} (h : Emits sizes hasFreqs out runs mid)
    (h' : Emits sizes hasFreqs mid runs' out') : Emits sizes hasFreqs out (runs ++ runs') out' := by
  induction h with
  | nil => exact h'
  | cons first _ ih => exact .cons first (ih h')

/-- From one emission to another, these runs were emitted as these items. -/
structure Steps (sizes : BlockSizes) (hasFreqs : Bool) (out out' : Emission) (items : List Item)
    (new : List Run) : Prop where
  written : out'.items = out.items ++ items
  position : out'.position = out.position + (Item.encodeAll items).length
  emits : Emits sizes hasFreqs out new out'
  bounded : ∀ r ∈ new, r.Bounded sizes
  placed : Placed new out.position out'.position

namespace Steps

variable {sizes : BlockSizes} {hasFreqs : Bool} {out mid out' : Emission} {items items' : List Item}
  {new new' : List Run}

theorem refl (out : Emission) : Steps sizes hasFreqs out out [] [] :=
  ⟨(List.append_nil _).symm, rfl, .nil out, by simp, placed_nil ..⟩

theorem trans (h : Steps sizes hasFreqs out mid items new)
    (h' : Steps sizes hasFreqs mid out' items' new') :
    Steps sizes hasFreqs out out' (items ++ items') (new ++ new') := by
  refine ⟨?_, ?_, h.emits.append h'.emits, fun r hr => ?_, ?_⟩
  · rw [h'.written, h.written, List.append_assoc]
  · rw [h'.position, h.position, Item.encodeAll_append, List.length_append, Nat.add_assoc]
  · exact (List.mem_append.mp hr).elim (h.bounded r) (h'.bounded r)
  · refine h.placed.append h'.placed ?_ ?_
    · rw [h.position]
      exact Nat.le_add_right ..
    · rw [h'.position]
      exact Nat.le_add_right ..

end Steps

/-! ## Emissions one after the other -/

/-- The emission with other items before its own. -/
def Emission.after (out : Emission) (before : List Item) : Emission :=
  { out with items := before ++ out.items }

/-- What is in an emission already does not matter for the next block. -/
theorem emitBlock_after {hasFreqs : Bool} {stem : Bytes} {plan : BlockPlan} {group : List Entry}
    {isLast : Bool} {out out' : Emission} {written : WrittenBlock} (before : List Item)
    (h : Frontier.emitBlock hasFreqs stem plan group isLast out = .ok written out') :
    Frontier.emitBlock hasFreqs stem plan group isLast (out.after before)
      = .ok written (out'.after before) := by
  rw [Frontier.emitBlock] at h ⊢
  cases hencode : encodeBlock out.codec hasFreqs stem plan out.position group isLast with
  | error e =>
    rw [hencode] at h
    cases h
  | ok result =>
    rw [hencode] at h
    cases h
    simp only [Emission.after, hencode, List.append_assoc]

/-- Nor does it for a run. -/
theorem emitRun_after (hasFreqs : Bool) (stem : Bytes) (before : List Item)
    (plans : List BlockPlan) :
    ∀ {entries : List Entry} {out out' : Emission} {written : List WrittenBlock},
      Frontier.emitRun hasFreqs stem plans entries out = .ok written out' →
      Frontier.emitRun hasFreqs stem plans entries (out.after before)
        = .ok written (out'.after before) := by
  induction plans with
  | nil =>
    intro entries out out' written h
    rw [Frontier.emitRun] at h ⊢
    cases entries with
    | nil => cases h; rfl
    | cons e entries => cases h
  | cons plan plans ih =>
    intro entries out out' written h
    rw [Frontier.emitRun] at h ⊢
    cases hfirst : Frontier.emitBlock hasFreqs stem plan (entries.take plan.size) plans.isEmpty out
      with
    | error e mid =>
      rw [bind_error hfirst] at h
      cases h
    | ok block mid =>
      rw [bind_ok hfirst] at h
      rw [bind_ok (emitBlock_after before hfirst)]
      cases hrest : Frontier.emitRun hasFreqs stem plans (entries.drop plan.size) mid with
      | error e last =>
        rw [bind_error hrest] at h
        cases h
      | ok blocks last =>
        rw [bind_ok hrest] at h
        cases h
        rw [bind_ok (ih hrest)]
        rfl

/-- Runs are emitted alike behind other items. -/
theorem Emits.after {sizes : BlockSizes} {hasFreqs : Bool} {out out' : Emission} {runs : List Run}
    (h : Emits sizes hasFreqs out runs out') (before : List Item) :
    Emits sizes hasFreqs (out.after before) runs (out'.after before) := by
  induction h with
  | nil => exact .nil _
  | cons first _ ih => exact .cons ⟨emitRun_after _ _ _ _ first.written, first.pieces⟩ ih

/-- Steps are the same behind other items. -/
theorem Steps.after {sizes : BlockSizes} {hasFreqs : Bool} {out out' : Emission} {items : List Item}
    {new : List Run} (h : Steps sizes hasFreqs out out' items new) (before : List Item) :
    Steps sizes hasFreqs (out.after before) (out'.after before) items new := by
  refine ⟨?_, h.position, h.emits.after before, h.bounded, h.placed⟩
  show before ++ out'.items = before ++ out.items ++ items
  rw [h.written, List.append_assoc]

/-- The computation emits whole runs and then gives what is wanted; only without room it may fail
in between. -/
def Leads {α : Type} (sizes : BlockSizes) (hasFreqs : Bool) (room : Prop) (m : Emit α)
    (out : Emission) (wanted : α → List Item → List Run → Prop) : Prop :=
  (∃ a out' items new, m out = .ok a out' ∧ Steps sizes hasFreqs out out' items new ∧
    wanted a items new) ∨
  (¬ room ∧ ∃ e out' items new, m out = .error e out' ∧ Steps sizes hasFreqs out out' items new)

namespace Leads

variable {α β : Type} {sizes : BlockSizes} {hasFreqs : Bool} {room : Prop} {m : Emit α}
  {out : Emission} {wanted wanted' : α → List Item → List Run → Prop}

/-- Giving a result emits nothing. -/
theorem pure {a : α} (h : wanted a [] []) :
    Leads sizes hasFreqs room (Pure.pure a) out wanted :=
  .inl ⟨a, out, [], [], rfl, .refl out, h⟩

/-- One emission after the other leads to what both come to. -/
theorem bind {f : α → Emit β} {wanted' : β → List Item → List Run → Prop}
    (h : Leads sizes hasFreqs room m out wanted)
    (hf : ∀ a out' items new, Steps sizes hasFreqs out out' items new → wanted a items new →
      Leads sizes hasFreqs room (f a) out' fun b items' new' =>
        wanted' b (items ++ items') (new ++ new')) :
    Leads sizes hasFreqs room (m >>= f) out wanted' := by
  rcases h with ⟨a, mid, items, new, hm, hsteps, hwanted⟩ | ⟨hroom, e, out', items, new, hm, hsteps⟩
  · rcases hf a mid items new hsteps hwanted with ⟨b, out', items', new', hfa, hsteps', hwanted'⟩ |
      ⟨hroom, e, out', items', new', hfa, hsteps'⟩
    · exact .inl ⟨b, out', _, _, (bind_ok hm).trans hfa, hsteps.trans hsteps', hwanted'⟩
    · exact .inr ⟨hroom, e, out', _, _, (bind_ok hm).trans hfa, hsteps.trans hsteps'⟩
  · exact .inr ⟨hroom, e, out', items, new, bind_error hm, hsteps⟩

/-- What an emission leads to may be said more weakly. -/
theorem imp (h : Leads sizes hasFreqs room m out wanted)
    (himp : ∀ a items new, wanted a items new → wanted' a items new) :
    Leads sizes hasFreqs room m out wanted' := by
  rcases h with ⟨a, out', items, new, hm, hsteps, hwanted⟩ | herror
  · exact .inl ⟨a, out', items, new, hm, hsteps, himp a items new hwanted⟩
  · exact .inr herror

end Leads

/-- The pieces of the run are in the stream, whatever follows it. -/
structure InStream (hasFreqs : Bool) (stream : Bytes) (r : Run) : Prop where
  before : ∀ p ∈ r.pieces, p.fp < stream.length
  chain : stream.length ≤ 2 ^ 62 → (∀ p ∈ r.pieces, p.Storable hasFreqs) →
    ∀ after, Chain (stream ++ after) hasFreqs r.stem.length r.fp r.pieces

/-- What is in a stream stays there when more is written. -/
theorem InStream.mono {hasFreqs : Bool} {stream : Bytes} {r : Run} (h : InStream hasFreqs stream r)
    (more : Bytes) : InStream hasFreqs (stream ++ more) r := by
  refine ⟨fun p hp => ?_, fun hroom hstorable after => ?_⟩
  · have := h.before p hp
    rw [List.length_append]
    omega
  · rw [List.length_append] at hroom
    rw [List.append_assoc]
    exact h.chain (by omega) hstorable _

/-- The terms leave room for the index: the offsets of its nodes fit 64 bits. -/
def Room (terms : Terms) : Prop := Transducer.arcRoom locationRoom * termBytes terms ≤ 2 ^ 64

instance (terms : Terms) : Decidable (Room terms) := inferInstanceAs (Decidable (_ ≤ _))

/-- If terms leave room, the first of them do. -/
theorem Room.of_append {a b : Terms} (h : Room (a ++ b)) : Room a := by
  refine Nat.le_trans (Nat.mul_le_mul_left _ ?_) h
  rw [termBytes_append]
  omega

/-- If terms leave room, the last of them do. -/
theorem Room.of_append_right {a b : Terms} (h : Room (a ++ b)) : Room b := by
  refine Nat.le_trans (Nat.mul_le_mul_left _ ?_) h
  rw [termBytes_append]
  omega

/-- The sizes of blocks that a run keeps to. -/
structure BlockSizes.Valid (sizes : BlockSizes) : Prop where
  two_le : 2 ≤ sizes.min
  le : sizes.min ≤ sizes.max
  twice_le : 2 * (sizes.min - 1) ≤ sizes.max

/-- Sizes that are accepted are valid. -/
theorem BlockSizes.valid_of_check {sizes : BlockSizes} (h : sizes.check = .ok ()) :
    sizes.Valid := by
  rw [check] at h
  split at h
  · exact absurd h (by simp)
  · split at h
    · exact absurd h (by simp)
    · split at h
      · exact absurd h (by simp)
      · exact ⟨by omega, by omega, by omega⟩

/-- Entries that start with a string and go on with a byte start with both. -/
theorem filter_lead_le_share {stem : Bytes} {entries : List Entry}
    (hstem : ∀ e ∈ entries, stem <+: e.key) (label : UInt8) :
    (entries.filter fun e => e.lead stem.length = some label).length
      ≤ share (stem ++ [label]) entries := by
  rw [← List.countP_eq_length_filter]
  refine List.countP_mono_left fun e he hlead => ?_
  obtain ⟨rest, hrest⟩ := hstem e he
  rw [List.isPrefixOf_iff_prefix]
  rw [decide_eq_true_eq, Entry.lead, ← hrest, List.getElem?_append_right (Nat.le_refl _),
    Nat.sub_self] at hlead
  cases rest with
  | nil => simp at hlead
  | cons c rest =>
    obtain rfl : c = label := by simpa using hlead
    exact ⟨rest, by rw [← hrest]; simp⟩

/-- At most one entry is the string itself. -/
theorem filter_no_lead_le {stem : Bytes} {entries : List Entry}
    (hstem : ∀ e ∈ entries, stem <+: e.key)
    (hordered : entries.Pairwise fun x y => x.key < y.key) :
    (entries.filter fun e => e.lead stem.length = none).length ≤ 1 := by
  have hkeys : ∀ e ∈ entries.filter fun e => e.lead stem.length = none, e.key = stem := by
    intro e he
    obtain ⟨he, hlead⟩ := List.mem_filter.mp he
    rw [decide_eq_true_eq, Entry.lead, List.getElem?_eq_none_iff] at hlead
    exact ((hstem e he).eq_of_length_le hlead).symm
  have hpair := hordered.sublist (List.filter_sublist (p := fun e => e.lead stem.length = none))
  generalize entries.filter (fun e => e.lead stem.length = none) = l at hkeys hpair
  match l, hkeys, hpair with
  | [], _, _ => exact Nat.zero_le _
  | [_], _, _ => exact Nat.le_refl _
  | x :: y :: _, hkeys, hpair =>
    have hlt := (List.pairwise_cons.mp hpair).1 y (List.mem_cons_self ..)
    rw [hkeys x (by simp), hkeys y (by simp)] at hlt
    exact absurd hlt (List.lt_irrefl _)

/-- The blocks of a run are within their bounds, as its entries leave no more of a longer prefix
than fits one block. -/
theorem Run.bounded_of_parts {sizes : BlockSizes} {stem : Bytes} {entries : List Entry}
    {plans : List BlockPlan} {pieces : List Piece} (hsizes : sizes.Valid)
    (hparts : Parts stem.length sizes entries.length none plans entries)
    (hgroups : pieces.map (·.entries) = BlockPlan.groups plans entries)
    (hentries : Run.entries ⟨stem, pieces⟩ = entries)
    (hordered : entries.Pairwise fun x y => x.key < y.key)
    (hstem : ∀ e ∈ entries, stem <+: e.key)
    (hfew : ∀ q : Bytes, stem.length < q.length → share q entries < sizes.min)
    (henough : stem ≠ [] → sizes.min ≤ entries.length) :
    Run.Bounded sizes ⟨stem, pieces⟩ := by
  have htwo := hsizes.two_le
  have hfewLeads : ∀ label : Option UInt8,
      (entries.filter fun e => e.lead stem.length = label).length < sizes.min := by
    intro label
    cases label with
    | none => exact Nat.lt_of_le_of_lt (filter_no_lead_le hstem hordered) (by omega)
    | some label =>
      refine Nat.lt_of_le_of_lt (filter_lead_le_share hstem label) (hfew _ ?_)
      rw [List.length_append]
      exact Nat.lt_succ_self _
  refine ⟨fun q hq => ?_, fun q hq => ?_, fun hproper => ?_⟩
  · exact hparts.length_le hsizes.twice_le hfewLeads _
      (hgroups ▸ List.mem_map_of_mem hq)
  · refine hparts.min_le _ ?_
    rw [← hgroups, ← List.map_dropLast]
    exact List.mem_map_of_mem hq
  · rw [hentries]
    exact henough hproper

/-- What was laid is in every stream that it goes to the end of. -/
theorem Laid.exists_items {hasFreqs : Bool} {stem : Bytes} {out out' : Emission}
    {pieces : List Piece} (h : Laid hasFreqs stem.length out out' pieces) :
    ∃ items, out'.items = out.items ++ items ∧
      out'.position = out.position + (Item.encodeAll items).length ∧
      ∀ stream : Bytes, stream.length = out.position →
        InStream hasFreqs (stream ++ Item.encodeAll items) ⟨stem, pieces⟩ := by
  obtain ⟨⟨p, rest, hpieces, hp⟩, -, hbefore, items, hitems, hposition, hchain⟩ := h
  refine ⟨items, hitems, hposition, fun stream hstream => ?_⟩
  have hlength : (stream ++ Item.encodeAll items).length = out'.position := by
    rw [List.length_append, hposition, hstream]
  refine ⟨fun q hq => ?_, fun hroom hstorable after => ?_⟩
  · rw [hlength]
    exact (hbefore q hq).2
  · have hfp : Run.fp ⟨stem, pieces⟩ = out.position := by
      subst hpieces
      exact hp
    rw [hlength] at hroom
    rw [hfp, List.append_assoc]
    exact hchain (by omega) hstorable stream after hstream

/-- **A run is written.** -/
theorem writeRun_spec {sizes : BlockSizes} (hasFreqs : Bool) {stem : Bytes} {entries : List Entry}
    (out : Emission) (hsizes : sizes.Valid) (hne : entries ≠ [])
    (hordered : entries.Pairwise fun x y => x.key < y.key) (hapart : Apart entries)
    (hwithin : ∀ e ∈ entries, e.Within stem out.position)
    (hfew : ∀ q : Bytes, stem.length < q.length → share q entries < sizes.min)
    (henough : stem ≠ [] → sizes.min ≤ entries.length) :
    ∃ r out' items, r.stem = stem ∧ r.entries = entries ∧ r.fp = out.position ∧ r.Sound sizes ∧
      r.Emitted sizes hasFreqs out out' ∧ Steps sizes hasFreqs out out' items [r] ∧
      r.fp < out'.position ∧
      ∀ stream : Bytes, stream.length = out.position →
        InStream hasFreqs (stream ++ Item.encodeAll items) r := by
  have htwo := hsizes.two_le
  have hstem : ∀ e ∈ entries, stem <+: e.key := fun e he => (hwithin e he).prefix_key
  have hparts : Parts stem.length sizes entries.length none
      (planBlocks stem.length sizes entries) entries := planBlocks_spec (by omega) hne
  have hleads : entries.Pairwise fun x y =>
      y.notBefore stem.length (x.lead stem.length) = true :=
    hordered.imp_of_mem fun hx hy hlt => Entry.notBefore_of_lt (hstem _ hx) (hstem _ hy) hlt
  -- the blocks are written as planned, and make up a run of these entries
  obtain ⟨pieces, out', hemit, hgroups, hlaid⟩ :=
    emitRun_spec hasFreqs hparts (fun e _ => e.notBefore_none _) hleads hwithin
  obtain ⟨items, hitems, hposition, hstream⟩ := hlaid.exists_items
  obtain ⟨⟨p, rest, hpieces, hp⟩, hfps, hbefore, -⟩ := hlaid
  have hsliced := sliced_of_groups hparts hgroups hordered hstem
  have hentries : Run.entries ⟨stem, pieces⟩ = entries := hsliced.entries
  have hfp : Run.fp ⟨stem, pieces⟩ = out.position := by
    subst hpieces
    exact hp
  have hbounded := Run.bounded_of_parts hsizes hparts hgroups hentries hordered hstem hfew henough
  have hemitted : Run.Emitted sizes hasFreqs ⟨stem, pieces⟩ out out' := by
    refine ⟨?_, ?_⟩
    · rw [hentries]
      exact hemit
    · rw [hentries]
      exact hgroups
  refine ⟨⟨stem, pieces⟩, out', items, rfl, hentries, hfp, ?sound, hemitted, ?steps, ?advances,
    hstream⟩
  case sound =>
    refine { hbounded with
      nonempty := by rw [hpieces]; simp
      fps := hfps, sliced := ?_, ordered := ?_, apart := ?_, within := ?_, few := ?_ }
    · rw [hentries]
      exact hsliced
    · rw [hentries]
      exact hordered
    · rw [hentries]
      exact hapart
    · rw [hentries, hfp]
      exact hwithin
    · rw [hentries]
      exact hfew
  case steps =>
    refine ⟨hitems, hposition, .cons hemitted (.nil out'), fun r hr => ?_, ?_, fun n hn => ?_⟩
    · rw [List.mem_singleton.mp hr]
      exact hbounded
    · rw [offsets_singleton]
      exact List.pairwise_map.mpr hfps
    · rw [offsets_singleton] at hn
      obtain ⟨q, hq, rfl⟩ := List.mem_map.mp hn
      exact hbefore q hq
  case advances =>
    rw [hfp, ← hp]
    exact (hbefore p (hpieces ▸ List.mem_cons_self ..)).2

end Lexicon

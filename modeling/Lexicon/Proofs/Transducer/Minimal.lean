import Lexicon.Proofs.Transducer.Calls
import Lexicon.Proofs.Transducer.Residuals
import Mathlib.Data.List.Induction

/-!
# Built transducers are minimal

The builder shares nodes with the same bytes only, and moves an output down only as far as the next
key asks for it. Both are enough: when a node is laid out, no output can move up any more, so nodes
with the same keys below have the same bytes.

> **`Builder.finish_minimal`** — the transducer of keys in order is minimal.

The invariants are those of the nodes laid out (`Store.Tidy`) and of the open path (`Path.Tight`):
behind every arc the outputs begin with nothing in common. A new key keeps this, since what its
output and the old one have in common stays in front (`Bare.parted`).
-/

namespace Lexicon

/-- Where two outputs part, what follows begins with nothing in common. -/
theorem Pairs.Bare.parted {below : Pairs} (h : below.Bare) (rest output old : Bytes) :
    Bare (below.onto [] (old.drop (output.agreement old))
      ++ [(rest, output.drop (output.agreement old))]) := by
  intro common hcommon
  have hold : common <+: old.drop (output.agreement old) :=
    h.isPrefix fun p hp => hcommon _ (List.mem_append_left _ (mem_onto.mpr ⟨p, hp, rfl⟩))
  have houtput : common <+: output.drop (output.agreement old) :=
    hcommon (rest, _) (List.mem_append_right _ (List.mem_singleton.mpr rfl))
  exact Bytes.eq_nil_of_drop_agreement houtput hold

namespace Transducer

/-! ## Nodes laid out -/

namespace Store

/-- A node was laid out at the address. -/
def Knows (s : Store) (address : Nat) : Prop := ∃ bytes, (bytes, address) ∈ s.known

/-- No node was laid out twice, and their arcs are tight. -/
structure Tidy (s : Store) : Prop where
  distinct : (s.known.map (·.1)).Nodup
  node : ∀ bytes address, (bytes, address) ∈ s.known → ∃ arcs pairs,
    bytes = Item.encodeAll (nodeItems arcs) ∧ NodeAt s.nodes address arcs ∧
      Spells s.nodes address arcs pairs ∧ ∀ a ∈ arcs, Tight s.nodes s.Knows a

variable {s s' : Store}

theorem tidy_empty : ({} : Store).Tidy := ⟨List.nodup_nil, fun _ _ h => by simp at h⟩

/-- A tidy store is sound. -/
theorem Tidy.sound (h : s.Tidy) : s.Sound := by
  intro bytes address hmem
  obtain ⟨arcs, _, hbytes, hat, hspells, -⟩ := h.node bytes address hmem
  exact ⟨arcs, hbytes, hat, hspells.target_lt⟩

/-- The nodes of a tidy store are canonical. -/
theorem Tidy.canonical (h : s.Tidy) : Canonical s.nodes s.Knows := by
  refine ⟨fun x ⟨bytes, hx⟩ => ?_, fun x y arcs ⟨bytes, hx⟩ ⟨bytes', hy⟩ hat hat' => ?_⟩
  · obtain ⟨arcs, pairs, -, hat, hspells, htight⟩ := h.node bytes x hx
    exact ⟨arcs, pairs, hat, hspells, htight⟩
  · -- nodes with the same arcs have the same bytes, which are known once
    obtain ⟨_, _, rfl, hown, -⟩ := h.node bytes x hx
    obtain ⟨_, _, rfl, hown', -⟩ := h.node bytes' y hy
    obtain rfl := hat.unique hown
    obtain rfl := hat'.unique hown'
    exact congrArg Prod.snd (List.inj_on_of_nodup_map h.distinct hx hy rfl)

/-- A node that is known stays known. -/
theorem Kept.knows (h : s.Kept s') {x : Nat} (hx : s.Knows x) : s'.Knows x :=
  hx.imp fun _ hmem => h.known.subset hmem

/-- An arc that is tight stays tight. -/
theorem Kept.tight (h : s.Kept s') {a : Arc} (ha : Tight s.nodes s.Knows a) :
    Tight s'.nodes s'.Knows a := by
  obtain ⟨more, hmore⟩ := h.nodes
  obtain ⟨below, hbelow, hbare⟩ := ha.bare
  refine ⟨fun next hnext => h.knows (ha.known next hnext), below, ?_, hbare⟩
  rw [← hmore]
  exact hbelow.mono (by rw [List.length_append]; exact Nat.le_add_right ..)

/-- Tight arcs are laid out as one node, be it new or shared. -/
theorem Tidy.place (h : s.Tidy) {arcs : List Arc} {pairs : Pairs} (hne : arcs ≠ [])
    (hsorted : Sorted arcs) (hstorable : ∀ a ∈ arcs, a.Storable)
    (hspells : Spells s.nodes s.nodes.length arcs pairs)
    (htight : ∀ a ∈ arcs, Tight s.nodes s.Knows a) :
    (s.place arcs).2.Tidy ∧ ∀ x, (s.place arcs).1 = some x → (s.place arcs).2.Knows x := by
  have hkept := s.kept_place arcs
  rcases place_cases h.sound hne hsorted hstorable with
    ⟨address, hmem, -, -, hplace⟩ | ⟨hnot, hat, hplace⟩
  · rw [hplace]
    refine ⟨h, fun x hx => ?_⟩
    obtain rfl := Option.some.inj hx
    exact ⟨_, hmem⟩
  · rw [hplace] at hkept ⊢
    refine ⟨⟨List.nodup_cons.mpr ⟨hnot, h.distinct⟩, fun bytes address hmem => ?_⟩, fun x hx => ?_⟩
    · rcases List.mem_cons.mp hmem with heq | hmem
      · obtain ⟨rfl, rfl⟩ := Prod.mk.inj heq
        exact ⟨arcs, pairs, rfl, hat, hspells.mono (Nat.le_refl _), fun a ha =>
          hkept.tight (htight a ha)⟩
      · obtain ⟨arcs', pairs', hbytes, hat', hspells', htight'⟩ := h.node bytes address hmem
        exact ⟨arcs', pairs', hbytes, hat'.mono, hspells'.mono (Nat.le_refl _), fun a ha =>
          hkept.tight (htight' a ha)⟩
    · obtain rfl := Option.some.inj hx
      exact ⟨_, List.mem_cons_self ..⟩

end Store

/-! ## The open path -/

namespace Path

/-- Behind every arc of the path the outputs begin with nothing in common. -/
def Tight (s : Store) : Path → Prop
  | .tip _ => True
  | .node _ arcs _ _ child =>
    (∀ a ∈ arcs, Transducer.Tight s.nodes s.Knows a) ∧
      (∃ below, child.Spells s.nodes below ∧ below.Bare) ∧ child.Tight s

/-- A path spells one row of pairs only. -/
theorem Spells.unique {nodes : Bytes} {path : Path} :
    ∀ {pairs pairs' : Pairs}, path.Spells nodes pairs → path.Spells nodes pairs' →
      pairs = pairs' := by
  induction path with
  | tip => exact fun h h' => Eq.trans h (Eq.symm h')
  | node final arcs label output child ih =>
    rintro _ _ ⟨done, below, hdone, -, -, hchild, -, rfl⟩
      ⟨done', below', hdone', -, -, hchild', -, rfl⟩
    rw [hdone.unique hdone', ih hchild hchild']

variable {s s' : Store}

/-- What an arc puts out itself does not matter. -/
theorem Tight.prepend {path : Path} (h : path.Tight s) (bytes : Bytes) :
    (path.prepend bytes).Tight s := by
  cases path with
  | tip => trivial
  | node final arcs label output child =>
    obtain ⟨harcs, hbare, hchild⟩ := h
    refine ⟨fun a ha => ?_, hbare, hchild⟩
    obtain ⟨b, hb, rfl⟩ := List.mem_map.mp ha
    exact ⟨(harcs b hb).known, (harcs b hb).bare⟩

/-- The path of a new key is tight, as its outputs are empty. -/
theorem tight_ofKey (s : Store) (key : Bytes) : (ofKey key).Tight s := by
  induction key with
  | nil => trivial
  | cons label rest ih =>
    exact ⟨by simp, ⟨_, spells_ofKey _ rest, Pairs.bare_of_mem (List.mem_singleton.mpr rfl)⟩, ih⟩

/-- The arc to a child that was laid out joins those that were complete. -/
theorem tight_closing {arcs : List Arc} {label : UInt8} {output : Bytes} {child : Path}
    {target : Option Nat} {strict : Pairs}
    (harcs : ∀ a ∈ arcs, Transducer.Tight s.nodes s.Knows a)
    (hknown : ∀ x, target = some x → s.Knows x)
    (hbelow : Below s.nodes s.nodes.length target strict)
    (hbare : (here child.final ++ strict).Bare) :
    ∀ a ∈ arcs ++ [closing label output child target],
      Transducer.Tight s.nodes s.Knows a := by
  have hrests : (closing label output child target).rests strict = here child.final ++ strict := by
    rw [Arc.rests, closing]
    cases child.final <;> rfl
  intro a ha
  rcases List.mem_append.mp ha with ha | ha
  · exact harcs a ha
  · obtain rfl := List.mem_singleton.mp ha
    exact ⟨hknown, strict, hbelow, by rwa [hrests]⟩

variable {most : Nat} {pairs : Pairs}

/-- **Laying out a tight path keeps the nodes tidy.** -/
theorem Tight.freeze (hwidth : most < 2 ^ 32) (path : Path) :
    ∀ {s : Store} {pairs : Pairs}, path.Tight s → s.Tidy → path.Spells s.nodes pairs →
      (∀ p ∈ pairs, p.2.length ≤ most) → (path.freeze s).2.nodes.length ≤ 2 ^ 64 →
      (path.freeze s).2.Tidy ∧ ∀ x, (path.freeze s).1 = some x → (path.freeze s).2.Knows x := by
  induction path with
  | tip => exact fun _ htidy _ _ _ => ⟨htidy, fun x hx => by cases hx⟩
  | node final arcs label output child ih =>
    rintro s _ ⟨harcs, ⟨below, hchild, hbare⟩, hdeep⟩ htidy
      ⟨done, below', hdone, hsorted, hlast, hchild', hne, rfl⟩ hmost hroom
    obtain rfl := hchild.unique hchild'
    rw [Path.freeze] at hroom ⊢
    have hroom' := Nat.le_trans (Store.length_le_place (child.freeze s).2 _) hroom
    have hkept := child.kept_freeze s
    -- the child is laid out first, and the arc to it is tight as what the child spells is bare
    obtain ⟨htidy', hknown⟩ := ih hdeep htidy hchild (length_snd_le hmost) hroom'
    obtain ⟨target, s₁, strict, hfreeze, hgrown, rfl, htarget⟩ :=
      freeze_spec hwidth child hchild htidy.sound (length_snd_le hmost) (.inl hroom')
    rw [hfreeze] at hroom hroom' hkept htidy' hknown ⊢
    have hspells : Transducer.Spells s₁.nodes s₁.nodes.length
        (arcs ++ [closing label output child target])
        (done ++ (here child.final ++ strict).onto [label] output) :=
      (hgrown.spells hdone).append (spells_closing hne htarget)
    refine htidy'.place (by simp) (sorted_closing hsorted hlast)
      (hspells.storable (fun p hp => hmost p ?_) hwidth hroom') hspells
      (tight_closing (fun a ha => hkept.tight (harcs a ha)) hknown htarget hbare)
    rw [List.append_assoc]
    exact List.mem_append_right _ hp

/-- **A path stays tight when the next key is taken**, and so do the nodes. -/
theorem Tight.insert (hwidth : most < 2 ^ 32) (key : Bytes) :
    ∀ {path : Path} {s : Store} {pairs : Pairs} (output : Bytes), path.Tight s → s.Tidy →
      path.Spells s.nodes pairs → path.spine < key → (∀ p ∈ pairs, p.2.length ≤ most) →
      (path.insert key output s).2.nodes.length ≤ 2 ^ 64 →
      (path.insert key output s).1.Tight (path.insert key output s).2 ∧
        (path.insert key output s).2.Tidy := by
  induction key with
  | nil => intro path s pairs output _ _ _ hlt; exact absurd hlt (List.not_lt_nil _)
  | cons label rest ih =>
    intro path s pairs output htight htidy h hlt hmost hroom
    have hbare : ∀ s : Store, ∃ below, (ofKey rest).Spells s.nodes below ∧ below.Bare := fun s =>
      ⟨_, spells_ofKey _ rest, Pairs.bare_of_mem (List.mem_singleton.mpr rfl)⟩
    have hkept := kept_insert (label :: rest) path output s
    cases path with
    | tip final => exact ⟨⟨by simp, hbare s, tight_ofKey s rest⟩, htidy⟩
    | node final arcs last old child =>
      obtain ⟨harcs, ⟨below, hchild, hbelow⟩, hdeep⟩ := htight
      obtain ⟨done, below', hdone, hsorted, hlast, hchild', hne, rfl⟩ := h
      obtain rfl := hchild.unique hchild'
      rw [spine, List.cons_lt_cons_iff] at hlt
      by_cases hlabel : label = last
      case pos =>
        subst hlabel
        rw [Path.insert, if_pos rfl] at hroom hkept ⊢
        have hrest : (child.prepend (old.drop (output.agreement old))).spine < rest := by
          rw [spine_prepend]
          exact (hlt.resolve_left (UInt8.lt_irrefl _)).2
        obtain ⟨htight', htidy'⟩ := ih (output.drop (output.agreement old)) (hdeep.prepend _) htidy
          (hchild.prepend _) hrest (length_parted_le _ hmost) hroom
        obtain ⟨child', s', _, hinsert, -, hspells, -⟩ :=
          insert_spec hwidth rest (output.drop (output.agreement old)) (hchild.prepend _)
            htidy.sound hrest (length_parted_le _ hmost) (.inl hroom)
        simp only [hinsert] at hkept htight' htidy' ⊢
        -- what the two outputs share stays on the arc, and all else moves below it
        exact ⟨⟨fun a ha => hkept.tight (harcs a ha),
          ⟨_, hspells, hbelow.parted rest output old⟩, htight'⟩, htidy'⟩
      case neg =>
        rw [Path.insert, if_neg hlabel] at hroom hkept ⊢
        obtain ⟨htidy', hknown⟩ :=
          Tight.freeze hwidth child hdeep htidy hchild (length_snd_le hmost) hroom
        obtain ⟨target, s', strict, hfreeze, -, rfl, htarget⟩ :=
          freeze_spec hwidth child hchild htidy.sound (length_snd_le hmost) (.inl hroom)
        rw [hfreeze] at hkept htidy' hknown ⊢
        refine ⟨⟨?_, hbare s', tight_ofKey s' rest⟩, htidy'⟩
        exact tight_closing (fun a ha => hkept.tight (harcs a ha)) hknown htarget hbelow

end Path

/-! ## All keys -/

namespace Builder

/-- A key that is taken goes beyond the open path. -/
theorem Holds.spine_lt {most : Nat} {b : Builder} {taken : Pairs} {key : Bytes}
    (h : Holds most b taken) (hfree : ¬ (0 < b.size ∧ ¬ b.last < key)) (hkey : key ≠ []) :
    b.path.spine < key := by
  rw [h.spine]
  cases taken with
  | nil =>
    -- before any key the path is empty
    obtain ⟨label, rest, rfl⟩ := List.exists_cons_of_ne_nil hkey
    rw [h.last]
    exact List.nil_lt_cons ..
  | cons p taken =>
    by_contra hnot
    refine hfree ⟨?_, hnot⟩
    rw [h.size]
    exact Nat.succ_pos _

/-- **Whatever is called, nodes and path stay tight.** -/
theorem attempts_tight {most : Nat} (hwidth : most < 2 ^ 32) (calls : Pairs) :
    (∀ p ∈ calls, p.2.length ≤ most) → (attempts {} calls).store.nodes.length ≤ 2 ^ 64 →
      (attempts {} calls).path.Tight (attempts {} calls).store ∧
        (attempts {} calls).store.Tidy := by
  induction calls using List.reverseRecOn with
  | nil => exact fun _ _ => ⟨trivial, Store.tidy_empty⟩
  | append_singleton calls call ih =>
    intro hmost hroom
    obtain ⟨key, output⟩ := call
    have hattempts : attempts {} (calls ++ [(key, output)])
        = (attempts {} calls).attempt (key, output) := by
      rw [attempts, List.foldl_append]
      rfl
    rw [hattempts] at hroom ⊢
    have hmost' : ∀ p ∈ calls, p.2.length ≤ most := fun p hp => hmost p (List.mem_append_left _ hp)
    have hroom' := Nat.le_trans ((attempts {} calls).length_le_attempt _) hroom
    have hholds := attempts_holds hwidth calls (holds_empty most) hmost' hroom'
    obtain ⟨htight, htidy⟩ := ih hmost' hroom'
    rw [attempt, add] at hroom ⊢
    split_ifs at hroom ⊢ with hlast hkey
    · exact ⟨htight, htidy⟩
    · exact ⟨htight, htidy⟩
    · obtain ⟨below, hpairs, hspells⟩ := hholds.spelled
      refine htight.insert hwidth key output htidy hspells
        (hholds.spine_lt hlast (by simpa using hkey)) (fun p hp => ?_) hroom
      have haccepted : p ∈ acceptedFrom [] calls := by
        rw [hpairs]
        exact List.mem_append_right _ hp
      exact hmost' p (mem_acceptedFrom calls haccepted)

/-- **The transducer of keys in order is minimal**: it has no two nodes with the same keys below,
and nothing that is put out behind one of its arcs could be put out before. -/
theorem finish_minimal {pairs : Pairs} (hincreasing : pairs.Increasing)
    (houtputs : ∀ p ∈ pairs, p.2.length < 2 ^ 32) :
    ∃ b, ({} : Builder).addAll pairs = .ok b ∧
      (b.finish.nodes.length ≤ 2 ^ 64 → b.finish.Minimal) := by
  refine ⟨attempts {} pairs, addAll_of_increasing hincreasing, fun hroom => ?_⟩
  have hwidth : 2 ^ 32 - 1 < 2 ^ 32 := by omega
  have hmost : ∀ p ∈ pairs, p.2.length ≤ 2 ^ 32 - 1 :=
    fun p hp => Nat.le_sub_one_of_lt (houtputs p hp)
  have hroom' := Nat.le_trans
    (Path.length_le_freeze (attempts {} pairs).path (attempts {} pairs).store) hroom
  obtain ⟨htight, htidy⟩ := attempts_tight hwidth pairs hmost hroom'
  have hholds := holds_attempts houtputs hroom
  rw [accepted_of_increasing hincreasing] at hholds
  obtain ⟨below, hpairs, hspells⟩ := hholds.spelled
  obtain ⟨htidy', hknown⟩ := htight.freeze hwidth _ htidy hspells
    (fun p hp => hmost p (hpairs ▸ List.mem_append_right _ hp)) hroom
  exact htidy'.canonical.minimal hknown

/-- Keys with the same ends and outputs that begin alike. -/
def alikeSample : Pairs :=
  [([], [1]), ([97, 5, 6], [7, 8]), ([97, 5, 7], [7, 9, 4]), ([98, 5, 6], [3, 8]),
    ([98, 5, 7], [3, 9, 4]), ([98, 5, 7, 0], [3])]

/-- Keys with equal endings and outputs that share their beginnings. -/
theorem finish_minimal_alike :
    alikeSample.Increasing ∧ (∀ p ∈ alikeSample, p.2.length < 2 ^ 32) ∧
      ∃ b, ({} : Builder).addAll alikeSample = .ok b ∧ b.finish.Minimal := by
  have hincreasing : alikeSample.Increasing := by
    unfold Pairs.Increasing
    decide
  have houtputs : ∀ p ∈ alikeSample, p.2.length < 2 ^ 32 := by decide
  obtain ⟨b, hadd, hminimal⟩ := finish_minimal hincreasing houtputs
  refine ⟨hincreasing, houtputs, b, hadd, hminimal ?_⟩
  rw [addAll_of_increasing hincreasing] at hadd
  obtain rfl := Except.ok.inj hadd
  decide +kernel

end Builder

end Transducer

end Lexicon

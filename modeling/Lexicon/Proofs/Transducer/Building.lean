import Lexicon.Proofs.Order
import Lexicon.Proofs.Transducer.Keys
import Lexicon.Transducer.Builder
import Mathlib.Algebra.Ring.Nat

/-!
# Building transducers

`build_spec`: keys in order, with what they put out, are all taken, and the transducer in the end
maps exactly them.

Two invariants carry this. The store knows only nodes that lie where it says (`Store.Sound`), so a
node with the same bytes can stand for one that is to be laid out. The open path together with the
store spells the keys so far (`Path.Spells`); laying out the end of the path and taking the next key
both keep what is spelled.

Offsets of nodes have 64 bits. Every arc is laid out once at most, so the nodes take no more than
`arcRoom most` bytes for each byte of the keys, `most` being a bound for what a key puts out. It is
enough that this room is there, or else that the nodes in the end have such offsets (`Store.Fits`).
-/

namespace Lexicon.Transducer

/-- Bytes that an arc takes at most, with its share of the node. -/
def arcRoom (most : Nat) : Nat := 2 * most + 27

/-- Number of bytes of all keys. -/
def keyBytes (pairs : Pairs) : Nat := (pairs.map fun p => p.1.length).sum

@[simp]
theorem keyBytes_nil : keyBytes [] = 0 := rfl

@[simp]
theorem keyBytes_cons (p : Bytes × Bytes) (pairs : Pairs) :
    keyBytes (p :: pairs) = p.1.length + keyBytes pairs := by
  simp [keyBytes]

@[simp]
theorem keyBytes_append (a b : Pairs) : keyBytes (a ++ b) = keyBytes a + keyBytes b := by
  simp [keyBytes]

/-! ## The store -/

/-- What arcs put out is part of what keys put out. -/
theorem Spells.output_le {nodes : Bytes} {bound most : Nat} {arcs : List Arc} {pairs : Pairs}
    (h : Spells nodes bound arcs pairs) (hmost : ∀ p ∈ pairs, p.2.length ≤ most) :
    ∀ a ∈ arcs, a.output.length ≤ most ∧ a.finalOutput.length ≤ most := by
  have hends : ∀ {a : Arc} {rest : Pairs}, a.final = true →
      (∀ p ∈ a.ends ++ rest, p.2.length ≤ most) →
      a.output.length ≤ most ∧ a.finalOutput.length ≤ most := by
    intro a rest hfinal hmost
    have := hmost ([a.label], a.output ++ a.finalOutput) (by simp [Arc.ends, hfinal])
    rw [List.length_append] at this
    omega
  induction h with
  | nil => simp
  | leaf _ final _ ih =>
    intro b hb
    rcases List.mem_cons.mp hb with rfl | hb
    · exact hends final hmost
    · exact ih (fun p hp => hmost p (List.mem_append_right _ hp)) b hb
  | @node bound address a arcs arcs' below rest _ _ quiet at' inside _ _ ihOthers =>
    intro b hb
    rcases List.mem_cons.mp hb with rfl | hb
    · by_cases hfinal : b.final = true
      · rw [List.append_assoc] at hmost
        exact hends hfinal hmost
      · -- There is a key below the arc.
        rw [quiet (by simpa using hfinal)]
        obtain ⟨q, below', rfl⟩ := List.exists_cons_of_ne_nil (inside.ne_nil at'.nonempty)
        have := hmost ([b.label] ++ q.1, b.output ++ q.2) (by simp)
        rw [List.length_append] at this
        exact ⟨by omega, Nat.zero_le _⟩
    · exact ihOthers (fun p hp => hmost p (List.mem_append_right _ hp)) b hb

/-- An arc points below the bound that its node was spelled at. -/
theorem Spells.target_lt {nodes : Bytes} {bound : Nat} {arcs : List Arc} {pairs : Pairs}
    (h : Spells nodes bound arcs pairs) :
    ∀ a ∈ arcs, ∀ address, a.target = some address → address < bound := by
  induction h with
  | nil => simp
  | leaf target _ _ ih =>
    intro a ha
    rcases List.mem_cons.mp ha with rfl | ha
    · simp [target]
    · exact ih a ha
  | node target lt _ _ _ _ _ ihOthers =>
    intro a ha
    rcases List.mem_cons.mp ha with rfl | ha
    · intro address haddress
      rw [target, Option.some.injEq] at haddress
      omega
    · exact ihOthers a ha

/-- An arc that leads nowhere ends a key. -/
theorem Spells.final_of_leaf {nodes : Bytes} {bound : Nat} {arcs : List Arc} {pairs : Pairs}
    (h : Spells nodes bound arcs pairs) : ∀ a ∈ arcs, a.target = none → a.final = true := by
  induction h with
  | nil => simp
  | leaf _ final _ ih =>
    intro a ha
    rcases List.mem_cons.mp ha with rfl | ha
    · exact fun _ => final
    · exact ih a ha
  | node target _ _ _ _ _ _ ihOthers =>
    intro a ha
    rcases List.mem_cons.mp ha with rfl | ha
    · simp [target]
    · exact ihOthers a ha

/-- The arcs of a node can be stored if the outputs of its keys are not too long. -/
theorem Spells.storable {nodes : Bytes} {bound most : Nat} {arcs : List Arc} {pairs : Pairs}
    (h : Spells nodes bound arcs pairs) (hmost : ∀ p ∈ pairs, p.2.length ≤ most)
    (hwidth : most < 2 ^ 32) (hbound : bound ≤ 2 ^ 64) : ∀ a ∈ arcs, a.Storable := by
  intro a ha
  obtain ⟨houtput, hfinal⟩ := h.output_le hmost a ha
  refine ⟨by omega, by omega, fun address haddress => ?_, h.final_of_leaf a ha⟩
  have := h.target_lt a ha address haddress
  omega

/-- A string is stored in at most five bytes more than it has. -/
theorem length_block_le (bs : Bytes) : (Item.block bs).encode.length ≤ 5 + bs.length := by
  have hlength := Item.length_encode_vint (UInt32.ofNat bs.length)
  rw [Item.encode] at hlength
  rw [Item.encode, List.length_append]
  omega

/-- An output is stored in at most five bytes more than it has. -/
theorem length_output_le (bs : Bytes) :
    (Item.encodeAll (if bs.isEmpty then [] else [.block bs])).length ≤ 5 + bs.length := by
  split
  · exact Nat.zero_le _
  · rw [Item.encodeAll_singleton]
    exact length_block_le bs

/-- An arc takes its label, its flags, two outputs at most and an offset. -/
theorem Arc.length_items_le {a : Arc} {most : Nat} (houtput : a.output.length ≤ most)
    (hfinal : a.finalOutput.length ≤ most) :
    (Item.encodeAll a.items).length ≤ 2 * most + 22 := by
  have h₁ := length_output_le a.output
  have h₂ := length_output_le a.finalOutput
  rw [Arc.items, Item.encodeAll_append, Item.encodeAll_append, Item.encodeAll_append,
    List.length_append, List.length_append, List.length_append]
  have hhead : (Item.encodeAll [.byte a.label, .byte a.flags]).length = 2 := rfl
  cases a.target with
  | none =>
    simp only [Item.encodeAll_nil, List.length_nil]
    omega
  | some address =>
    have haddress := Item.length_encode_vlong (UInt64.ofNat address)
    simp only [Item.encodeAll_singleton, Item.nat64]
    omega

/-- Arcs take at most as much room as so many of the largest. -/
theorem length_arcs_le {room : Nat} {arcs : List Arc}
    (h : ∀ a ∈ arcs, (Item.encodeAll a.items).length ≤ room) :
    (Item.encodeAll (arcs.flatMap Arc.items)).length ≤ room * arcs.length := by
  induction arcs with
  | nil => exact Nat.zero_le _
  | cons a arcs ih =>
    have h₁ := h a (List.mem_cons_self ..)
    have h₂ := ih fun b hb => h b (List.mem_cons_of_mem _ hb)
    rw [List.flatMap_cons, Item.encodeAll_append, List.length_append, List.length_cons,
      Nat.mul_succ]
    omega

/-- The count of the arcs of a node fits into the room of one of them. -/
theorem length_node_le {arcs : List Arc} {most : Nat} (hne : arcs ≠ [])
    (hmost : ∀ a ∈ arcs, a.output.length ≤ most ∧ a.finalOutput.length ≤ most) :
    (Item.encodeAll (nodeItems arcs)).length ≤ arcRoom most * arcs.length := by
  have harcs := length_arcs_le fun a ha => Arc.length_items_le (hmost a ha).1 (hmost a ha).2
  have hcount : (Item.nat32 arcs.length).encode.length ≤ 5 :=
    Item.length_encode_vint (UInt32.ofNat arcs.length)
  have hpos := List.length_pos_iff.mpr hne
  have hroom : (2 * most + 27) * arcs.length = (2 * most + 22) * arcs.length + 5 * arcs.length := by
    rw [← Nat.add_mul]
  rw [nodeItems, Item.encodeAll_cons, List.length_append, arcRoom]
  omega

namespace Store

/-- What the store knows of nodes is so. -/
def Sound (s : Store) : Prop :=
  ∀ bytes address, (bytes, address) ∈ s.known →
    ∃ arcs, bytes = Item.encodeAll (nodeItems arcs) ∧ NodeAt s.nodes address arcs ∧
      ∀ a ∈ arcs, ∀ target, a.target = some target → target < address

/-- The store has grown by so many arcs at most. -/
structure Grown (most : Nat) (s s' : Store) (arcs : Nat) : Prop where
  sound : s'.Sound
  extends' : ∃ more, s'.nodes = s.nodes ++ more
  room : s'.nodes.length ≤ s.nodes.length + arcRoom most * arcs

theorem Grown.refl {most : Nat} {s : Store} (h : s.Sound) : Grown most s s 0 :=
  ⟨h, ⟨[], (List.append_nil _).symm⟩, Nat.le_add_right ..⟩

/-- Growth adds up. -/
theorem Grown.trans {most : Nat} {s s' s'' : Store} {m n : Nat} (h : Grown most s s' m)
    (h' : Grown most s' s'' n) : Grown most s s'' (m + n) := by
  obtain ⟨more, hmore⟩ := h.extends'
  obtain ⟨more', hmore'⟩ := h'.extends'
  have hroom := h.room
  have hroom' := h'.room
  refine ⟨h'.sound, ⟨more ++ more', ?_⟩, ?_⟩
  · rw [hmore', hmore, List.append_assoc]
  · rw [Nat.mul_add]
    omega

/-- Nodes laid out before stay as they are. -/
theorem Grown.spells {most m : Nat} {s s' : Store} {arcs : List Arc} {pairs : Pairs}
    (h : Grown most s s' m) (hspells : Spells s.nodes s.nodes.length arcs pairs) :
    Spells s'.nodes s'.nodes.length arcs pairs := by
  obtain ⟨more, hmore⟩ := h.extends'
  rw [hmore]
  exact hspells.mono (by rw [List.length_append]; omega)

/-- Offsets of nodes have 64 bits: there are no more bytes of nodes in the end, or no more than so
many arcs can take. -/
def Fits (most : Nat) (s s' : Store) (arcs : Nat) : Prop :=
  s'.nodes.length ≤ 2 ^ 64 ∨ s.nodes.length + arcRoom most * arcs ≤ 2 ^ 64

/-- What fits with more arcs to come fits with fewer. -/
theorem Fits.fewer {most m n : Nat} {s s' : Store} (h : Fits most s s' n) (hle : m ≤ n) :
    Fits most s s' m :=
  h.imp_right (Nat.le_trans (Nat.add_le_add_left (Nat.mul_le_mul_left _ hle) _))

/-- What is laid out and known stays so. -/
structure Kept (s s' : Store) : Prop where
  nodes : s.nodes <+: s'.nodes
  known : s.known <:+ s'.known

theorem Kept.refl (s : Store) : s.Kept s := ⟨List.prefix_rfl, List.suffix_rfl⟩

theorem Kept.trans {s s' s'' : Store} (h : s.Kept s') (h' : s'.Kept s'') : s.Kept s'' :=
  ⟨h.nodes.trans h'.nodes, h.known.trans h'.known⟩

/-- Placing a node changes nothing that is stored. -/
theorem kept_place (s : Store) (arcs : List Arc) : s.Kept (s.place arcs).2 := by
  rw [place]
  split
  · exact .refl s
  · dsimp only
    split
    · exact .refl s
    · exact ⟨List.prefix_append .., List.suffix_cons ..⟩

theorem length_le_place (s : Store) (arcs : List Arc) :
    s.nodes.length ≤ (s.place arcs).2.nodes.length := (kept_place s arcs).nodes.length_le

/-- A node is known already, or laid out at the end. -/
theorem place_cases {s : Store} {arcs : List Arc} (hsound : s.Sound) (hne : arcs ≠ [])
    (hsorted : Sorted arcs) (hstorable : ∀ a ∈ arcs, a.Storable) :
    (∃ address, (Item.encodeAll (nodeItems arcs), address) ∈ s.known ∧
        NodeAt s.nodes address arcs ∧
        (∀ a ∈ arcs, ∀ target, a.target = some target → target < address) ∧
        s.place arcs = (some address, s)) ∨
      (Item.encodeAll (nodeItems arcs) ∉ s.known.map (·.1) ∧
        NodeAt (s.nodes ++ Item.encodeAll (nodeItems arcs)) s.nodes.length arcs ∧
        s.place arcs = (some s.nodes.length, ⟨s.nodes ++ Item.encodeAll (nodeItems arcs),
          (Item.encodeAll (nodeItems arcs), s.nodes.length) :: s.known⟩)) := by
  rw [place, if_neg (by simpa using hne)]
  dsimp only
  cases hlookup : s.known.lookup (Item.encodeAll (nodeItems arcs)) with
  | some address =>
    -- the node there has the same bytes, and therefore the same arcs
    have hmem : (Item.encodeAll (nodeItems arcs), address) ∈ s.known := by
      obtain ⟨front, back, hknown, -⟩ := List.lookup_eq_some_iff.mp hlookup
      rw [hknown]
      simp
    obtain ⟨arcs', hbytes, hat, htargets⟩ := hsound _ _ hmem
    obtain rfl := eq_of_encode_eq hsorted hat.sorted hstorable hat.storable hbytes
    exact .inl ⟨address, hmem, hat, htargets, rfl⟩
  | none =>
    refine .inr ⟨fun hmem => ?_,
      ⟨⟨s.nodes, [], by rw [List.append_nil], rfl⟩, hne, hsorted, hstorable⟩, rfl⟩
    obtain ⟨p, hp, heq⟩ := List.mem_map.mp hmem
    have hother := List.lookup_eq_none_iff.mp hlookup p hp
    rw [heq] at hother
    simp at hother

/-- **A node is placed**, be it new or shared. -/
theorem place_spec (most : Nat) {s : Store} {arcs : List Arc} {pairs : Pairs} (hsound : s.Sound)
    (hne : arcs ≠ []) (hsorted : Sorted arcs) (h : Spells s.nodes s.nodes.length arcs pairs)
    (hmost : ∀ p ∈ pairs, p.2.length ≤ most) (hwidth : most < 2 ^ 32)
    (hroom : s.nodes.length ≤ 2 ^ 64) :
    ∃ address s', s.place arcs = (some address, s') ∧ Grown most s s' arcs.length ∧
      Below s'.nodes s'.nodes.length (some address) pairs := by
  rcases place_cases hsound hne hsorted (h.storable hmost hwidth hroom) with
    ⟨address, -, hat, htargets, hplace⟩ | ⟨-, hat, hplace⟩
  · exact ⟨address, s, hplace, ⟨hsound, ⟨[], (List.append_nil _).symm⟩, Nat.le_add_right ..⟩,
      arcs, hat.address_lt, hat, h.narrow htargets⟩
  · -- the new node lies at the end, where those that it leads to lie before it
    refine ⟨s.nodes.length, _, hplace, ⟨?_, ⟨_, rfl⟩, ?_⟩, arcs, hat.address_lt, hat,
      h.mono (Nat.le_refl _)⟩
    · intro bytes address hmem
      rcases List.mem_cons.mp hmem with heq | hmem
      · obtain ⟨rfl, rfl⟩ := Prod.mk.inj heq
        exact ⟨arcs, rfl, hat, h.target_lt⟩
      · obtain ⟨arcs', hbytes, hat', htargets'⟩ := hsound _ _ hmem
        exact ⟨arcs', hbytes, hat'.mono, htargets'⟩
    · rw [List.length_append]
      exact Nat.add_le_add_left (length_node_le hne (h.output_le hmost)) _

end Store

/-! ## The open path -/

namespace Path

/-- The last key, from the first node of the path on. -/
def spine : Path → Bytes
  | .tip _ => []
  | .node _ _ label _ child => label :: child.spine

/-- Number of arcs that are not laid out yet. -/
def openArcs : Path → Nat
  | .tip _ => 0
  | .node _ arcs _ _ child => arcs.length + 1 + child.openArcs

/-- The key that ends at the first node of a path, if one does. -/
def here (final : Option Bytes) : Pairs := final.toList.map ([], ·)

/-- What the keys are that go through the first node of a path, and what they put out from there
on. -/
def Spells (nodes : Bytes) : Path → Pairs → Prop
  | .tip final, pairs => pairs = here final
  | .node final arcs label output child, pairs =>
    ∃ done below, Transducer.Spells nodes nodes.length arcs done ∧ Sorted arcs ∧
      (∀ a ∈ arcs, a.label < label) ∧ child.Spells nodes below ∧ below ≠ [] ∧
      pairs = here final ++ done ++ below.onto [label] output

/-- Bytes in front of the output of a node are in front of that of its own key. -/
theorem here_map (bytes : Bytes) (final : Option Bytes) :
    here (final.map (bytes ++ ·)) = (here final).onto [] bytes := by
  cases final <;> rfl

/-- Bytes in front of all outputs leave the last key as it is. -/
@[simp]
theorem spine_prepend (bytes : Bytes) (path : Path) : (path.prepend bytes).spine = path.spine := by
  cases path <;> rfl

/-- Bytes in front of all outputs leave as many arcs open. -/
@[simp]
theorem openArcs_prepend (bytes : Bytes) (path : Path) :
    (path.prepend bytes).openArcs = path.openArcs := by
  cases path with
  | tip => rfl
  | node => simp [prepend, openArcs]

/-- Bytes put in front of a path are in front of all outputs that it spells. -/
theorem Spells.prepend {nodes : Bytes} {path : Path} {pairs : Pairs} (h : path.Spells nodes pairs)
    (bytes : Bytes) : (path.prepend bytes).Spells nodes (pairs.onto [] bytes) := by
  cases path with
  | tip final =>
    rw [show pairs = here final from h, ← here_map]
    rfl
  | node final arcs label output child =>
    obtain ⟨done, below, hdone, hsorted, hlast, hchild, hne, rfl⟩ := h
    refine ⟨done.onto [] bytes, below, hdone.put bytes, ?_, ?_, hchild, hne, ?_⟩
    · exact List.pairwise_map.mpr hsorted
    · intro a ha
      obtain ⟨b, hb, rfl⟩ := List.mem_map.mp ha
      exact hlast b hb
    · rw [Pairs.onto_append, Pairs.onto_append, Pairs.onto_onto, here_map]
      rfl

/-- The path of a key spells this key alone. -/
theorem spells_ofKey (nodes key : Bytes) : (ofKey key).Spells nodes [(key, [])] := by
  induction key with
  | nil => rfl
  | cons label rest ih =>
    exact ⟨[], _, .nil _, List.Pairwise.nil, by simp, ih, by simp, rfl⟩

/-- The path of a key is open along the key. -/
@[simp]
theorem spine_ofKey (key : Bytes) : (ofKey key).spine = key := by
  induction key with
  | nil => rfl
  | cons label rest ih => rw [ofKey, spine, ih]

/-- The path of a key has one open arc for each byte. -/
@[simp]
theorem openArcs_ofKey (key : Bytes) : (ofKey key).openArcs = key.length := by
  induction key with
  | nil => rfl
  | cons label rest ih => rw [ofKey, openArcs, ih, List.length_cons, List.length_nil]; omega

/-- The arc to a child whose path is laid out. -/
def closing (label : UInt8) (output : Bytes) (child : Path) (target : Option Nat) : Arc :=
  ⟨label, output, child.final.isSome, child.final.getD [], target⟩

/-- The arc that closes a path spells what the path does, behind its own label and output. -/
theorem spells_closing {nodes : Bytes} {label : UInt8} {output : Bytes} {child : Path}
    {target : Option Nat} {strict : Pairs} (hne : here child.final ++ strict ≠ [])
    (h : Below nodes nodes.length target strict) :
    Transducer.Spells nodes nodes.length [closing label output child target]
      ((here child.final ++ strict).onto [label] output) := by
  have hends : (closing label output child target).ends
      = (here child.final).onto [label] output := by
    rw [Arc.ends, closing]
    cases child.final <;> rfl
  rw [Pairs.onto_append, ← hends]
  cases target with
  | none =>
    -- nothing is below the child, so a key ends at it
    obtain rfl := h
    have hfinal : (closing label output child none).final = true := by
      rw [closing]
      cases hchild : child.final with
      | none => simp [hchild, here] at hne
      | some => rfl
    simpa using Transducer.Spells.leaf (a := closing label output child none) rfl hfinal (.nil _)
  | some address =>
    obtain ⟨arcs, hlt, hat, hspells⟩ := h
    have hquiet : (closing label output child (some address)).final = false →
        (closing label output child (some address)).finalOutput = [] := by
      rw [closing]
      cases child.final with
      | none => intro _; rfl
      | some => intro hnot; simp at hnot
    have hnode := Transducer.Spells.node (a := closing label output child (some address)) rfl hlt
      hquiet hat hspells (.nil _)
    rwa [List.append_nil] at hnode

/-- The arc that closes a path keeps the order of the arcs before it. -/
theorem sorted_closing {arcs : List Arc} {label : UInt8} {output : Bytes} {child : Path}
    {target : Option Nat} (hsorted : Sorted arcs) (hlast : ∀ a ∈ arcs, a.label < label) :
    Sorted (arcs ++ [closing label output child target]) :=
  hsorted.concat hlast

/-- The outputs below an arc, with that of the arc in front, keep to the bound of the node. -/
theorem length_append_snd_le {below front : Pairs} {key output : Bytes} {most : Nat}
    (h : ∀ p ∈ front ++ below.onto key output, p.2.length ≤ most) :
    ∀ p ∈ below, (output ++ p.2).length ≤ most := by
  intro p hp
  refine h (key ++ p.1, output ++ p.2) (List.mem_append_right _ ?_)
  exact Pairs.mem_onto.mpr ⟨p, hp, rfl⟩

/-- The outputs below an arc keep to the bound of the node. -/
theorem length_snd_le {below front : Pairs} {key output : Bytes} {most : Nat}
    (h : ∀ p ∈ front ++ below.onto key output, p.2.length ≤ most) :
    ∀ p ∈ below, p.2.length ≤ most := by
  intro p hp
  have hboth := length_append_snd_le h p hp
  rw [List.length_append] at hboth
  omega

/-- Freezing a path changes nothing that is stored. -/
theorem kept_freeze (path : Path) (s : Store) : s.Kept (path.freeze s).2 := by
  induction path with
  | tip => exact .refl s
  | node final arcs label output child ih =>
    rw [freeze]
    exact ih.trans (Store.kept_place ..)

theorem kept_insert (key : Bytes) : ∀ (path : Path) (output : Bytes) (s : Store),
    s.Kept (path.insert key output s).2 := by
  induction key with
  | nil => intro path output s; rw [insert]; exact .refl s
  | cons label rest ih =>
    intro path output s
    cases path with
    | tip => exact .refl s
    | node final arcs last old child =>
      rw [insert]
      split
      · exact ih ..
      · exact kept_freeze ..

theorem length_le_freeze (path : Path) (s : Store) :
    s.nodes.length ≤ (path.freeze s).2.nodes.length := (path.kept_freeze s).nodes.length_le

theorem length_le_insert (key : Bytes) (path : Path) (output : Bytes) (s : Store) :
    s.nodes.length ≤ (path.insert key output s).2.nodes.length :=
  (kept_insert key path output s).nodes.length_le

/-- The rest of an output that moves down is part of it. -/
theorem length_parted_le {below front : Pairs} {key output : Bytes} {most : Nat} (kept : Nat)
    (h : ∀ p ∈ front ++ below.onto key output, p.2.length ≤ most) :
    ∀ p ∈ below.onto [] (output.drop kept), p.2.length ≤ most := by
  intro p hp
  obtain ⟨q, hq, rfl⟩ := Pairs.mem_onto.mp hp
  have := length_append_snd_le h q hq
  rw [List.length_append] at this
  simp only [List.length_append, List.length_drop]
  omega

/-- **A path is laid out**: the keys that go beyond its first node are those below the result. -/
theorem freeze_spec {most : Nat} (hwidth : most < 2 ^ 32) (path : Path) :
    ∀ {s : Store} {pairs : Pairs}, path.Spells s.nodes pairs → s.Sound →
      (∀ p ∈ pairs, p.2.length ≤ most) →
      Store.Fits most s (path.freeze s).2 path.openArcs →
      ∃ target s' strict, path.freeze s = (target, s') ∧ Store.Grown most s s' path.openArcs ∧
        pairs = here path.final ++ strict ∧ Below s'.nodes s'.nodes.length target strict := by
  induction path with
  | tip final =>
    intro s pairs h hsound _ _
    exact ⟨none, s, [], rfl, .refl hsound, by rw [List.append_nil]; exact h, rfl⟩
  | node final arcs label output child ih =>
    intro s pairs h hsound hmost hroom
    obtain ⟨done, below, hdone, hsorted, hlast, hchild, hne, rfl⟩ := h
    rw [Store.Fits, freeze, openArcs, Nat.mul_add, Nat.mul_add] at hroom
    have hplaced := Store.length_le_place (child.freeze s).2
      (arcs ++ [closing label output child (child.freeze s).1])
    -- the child is laid out first, and the arc to it completes the node
    obtain ⟨target, s₁, strict, hfreeze, hgrown, rfl, htarget⟩ :=
      ih hchild hsound (length_snd_le hmost) (hroom.imp (Nat.le_trans hplaced) (by omega))
    rw [hfreeze] at hroom hplaced
    have hroom₁ := hgrown.room
    have harcs : Transducer.Spells s₁.nodes s₁.nodes.length
        (arcs ++ [closing label output child target])
        (done ++ (here child.final ++ strict).onto [label] output) :=
      (hgrown.spells hdone).append (spells_closing hne htarget)
    obtain ⟨address, s₂, hplace, hgrown₂, hbelow₂⟩ := Store.place_spec most hgrown.sound
      (by simp) (sorted_closing hsorted hlast) harcs
      (fun p hp => hmost p (by rw [List.append_assoc]; exact List.mem_append_right _ hp)) hwidth
      (hroom.elim (Nat.le_trans hplaced) (by omega))
    refine ⟨some address, s₂, _, ?_, ?_, List.append_assoc .., hbelow₂⟩
    · rw [freeze, hfreeze]
      exact hplace
    · have := hgrown.trans hgrown₂
      rw [List.length_append, List.length_singleton, Nat.add_comm] at this
      exact this

/-- The next key is taken: it comes after all that the path spelled, and what is laid out of the
last key pays for itself. -/
def Takes (most : Nat) (path : Path) (s : Store) (pairs : Pairs) (key output : Bytes) : Prop :=
  ∃ path' s' laid, path.insert key output s = (path', s') ∧ Store.Grown most s s' laid ∧
    path'.Spells s'.nodes (pairs ++ [(key, output)]) ∧ path'.spine = key ∧
    path'.final = path.final ∧ laid + path'.openArcs ≤ path.openArcs + key.length

variable {most : Nat} {s : Store} {final : Option Bytes} {label last : UInt8}
  {rest output old : Bytes} {arcs : List Arc} {child : Path} {done below : Pairs}

/-- Behind the end of the last key a new path starts. -/
theorem takes_tip (hsound : s.Sound) :
    (tip final).Takes most s (here final) (label :: rest) output := by
  refine ⟨.node final [] label output (ofKey rest), s, 0, rfl, .refl hsound, ?_, ?_, rfl, ?_⟩
  · refine ⟨[], _, .nil _, List.Pairwise.nil, by simp, spells_ofKey _ rest, by simp, ?_⟩
    simp
  · rw [spine, spine_ofKey]
  · rw [openArcs, openArcs, openArcs_ofKey, List.length_cons, List.length_nil]
    omega

/-- The key goes on below the last label; the outputs keep what they have in common here. -/
theorem takes_along (hdone : Transducer.Spells s.nodes s.nodes.length arcs done)
    (hsorted : Sorted arcs) (hlast : ∀ a ∈ arcs, a.label < label)
    (h : (child.prepend (old.drop (output.agreement old))).Takes most s
      (below.onto [] (old.drop (output.agreement old))) rest
      (output.drop (output.agreement old))) :
    (node final arcs label old child).Takes most s
      (here final ++ done ++ below.onto [label] old) (label :: rest) output := by
  obtain ⟨child', s', laid, hinsert, hgrown, hspells, hspine, -, hlaid⟩ := h
  refine ⟨.node final arcs label (old.take (output.agreement old)) child', s', laid, ?_, hgrown,
    ?_, ?_, rfl, ?_⟩
  · rw [insert, if_pos rfl]
    simp only [hinsert]
  · refine ⟨done, _, hgrown.spells hdone, hsorted, hlast, hspells, by simp, ?_⟩
    rw [Pairs.onto_append, Pairs.onto_onto, List.append_nil, List.take_append_drop,
      ← List.append_assoc]
    congr 1
    rw [Pairs.onto_cons, Pairs.onto_nil]
    dsimp only
    rw [← Bytes.take_agreement, List.take_append_drop]
    rfl
  · rw [spine, hspine]
  · rw [openArcs_prepend] at hlaid
    rw [openArcs, openArcs, List.length_cons]
    omega

/-- The key parts from the last one: the path below the last label is laid out, and a new one
starts. -/
theorem takes_beside (hwidth : most < 2 ^ 32)
    (hdone : Transducer.Spells s.nodes s.nodes.length arcs done) (hsorted : Sorted arcs)
    (hlast : ∀ a ∈ arcs, a.label < last) (hlt : last < label) (hchild : child.Spells s.nodes below)
    (hne : below ≠ []) (hsound : s.Sound) (hmost : ∀ p ∈ below, p.2.length ≤ most)
    (hroom : Store.Fits most s (child.freeze s).2 child.openArcs) :
    (node final arcs last old child).Takes most s
      (here final ++ done ++ below.onto [last] old) (label :: rest) output := by
  obtain ⟨target, s', strict, hfreeze, hgrown, rfl, htarget⟩ :=
    freeze_spec hwidth child hchild hsound hmost hroom
  refine ⟨.node final (arcs ++ [closing last old child target]) label output (ofKey rest), s',
    child.openArcs, ?_, hgrown, ?_, ?_, rfl, ?_⟩
  · rw [insert, if_neg (fun heq => UInt8.lt_irrefl _ (heq ▸ hlt))]
    simp only [hfreeze]
    rfl
  · refine ⟨done ++ (here child.final ++ strict).onto [last] old, [(rest, [])],
      (hgrown.spells hdone).append (spells_closing hne htarget), sorted_closing hsorted hlast, ?_,
      spells_ofKey _ rest, by simp, ?_⟩
    · intro a ha
      rcases List.mem_append.mp ha with ha | ha
      · exact UInt8.lt_trans (hlast a ha) hlt
      · obtain rfl := List.mem_singleton.mp ha
        exact hlt
    · rw [Pairs.onto_cons, Pairs.onto_nil, List.append_nil, ← List.append_assoc]
      rfl
  · rw [spine, spine_ofKey]
  · rw [openArcs, openArcs, openArcs_ofKey, List.length_append, List.length_singleton,
      List.length_cons]
    omega

/-- **A key that sorts after the last one is taken.** -/
theorem insert_spec (hwidth : most < 2 ^ 32) (key : Bytes) :
    ∀ {path : Path} {s : Store} {pairs : Pairs} (output : Bytes), path.Spells s.nodes pairs →
      s.Sound → path.spine < key → (∀ p ∈ pairs, p.2.length ≤ most) →
      Store.Fits most s (path.insert key output s).2 path.openArcs →
      path.Takes most s pairs key output := by
  induction key with
  | nil => intro path s pairs output _ _ hlt; exact absurd hlt (List.not_lt_nil _)
  | cons label rest ih =>
    intro path s pairs output h hsound hlt hmost hroom
    cases path with
    | tip final =>
      rw [show pairs = here final from h]
      exact takes_tip hsound
    | node final arcs last old child =>
      obtain ⟨done, below, hdone, hsorted, hlast, hchild, hne, rfl⟩ := h
      rw [spine, List.cons_lt_cons_iff] at hlt
      replace hroom := hroom.fewer (m := child.openArcs) (by rw [openArcs]; omega)
      by_cases hlabel : label = last
      · subst hlabel
        rw [insert, if_pos rfl] at hroom
        have hrest : (child.prepend (old.drop (output.agreement old))).spine < rest := by
          rw [spine_prepend]
          rcases hlt with hlt | ⟨-, hlt⟩
          · exact absurd hlt (UInt8.lt_irrefl _)
          · exact hlt
        exact takes_along hdone hsorted hlast (ih (output.drop (output.agreement old))
          (hchild.prepend _) hsound hrest (length_parted_le _ hmost)
          (by rw [openArcs_prepend]; exact hroom))
      · rw [insert, if_neg hlabel] at hroom
        have hlt' : last < label := by
          rcases hlt with hlt | ⟨heq, -⟩
          · exact hlt
          · exact absurd heq.symm hlabel
        exact takes_beside hwidth hdone hsorted hlast hlt' hchild hne hsound (length_snd_le hmost)
          hroom

end Path

/-! ## All keys -/

namespace Builder

/-- The last of some keys. -/
def lastKey (pairs : Pairs) : Bytes := (pairs.getLast?.map (·.1)).getD []

/-- The builder holds these keys with what they put out. -/
structure Holds (most : Nat) (b : Builder) (pairs : Pairs) : Prop where
  size : b.size = pairs.length
  spelled : ∃ below, pairs = Path.here b.emptyOutput ++ below ∧ b.path.Spells b.store.nodes below
  open' : b.path.final = none
  sound : b.store.Sound
  last : b.last = lastKey pairs
  spine : b.path.spine = b.last
  room : b.store.nodes.length + arcRoom most * b.path.openArcs ≤ arcRoom most * keyBytes pairs

/-- A new builder holds nothing. -/
theorem holds_empty (most : Nat) : Holds most {} [] :=
  ⟨rfl, ⟨[], rfl, rfl⟩, rfl, fun _ _ h => by simp at h, rfl, rfl, Nat.le_refl _⟩

/-- The last key is that of the last pair. -/
theorem lastKey_append (pairs : Pairs) (p : Bytes × Bytes) : lastKey (pairs ++ [p]) = p.1 := by
  simp [lastKey]

/-- **A key that sorts after the last is taken.** -/
theorem add_spec {most : Nat} (hwidth : most < 2 ^ 32) {b : Builder} {pairs : Pairs}
    (h : Holds most b pairs) {key output : Bytes} (hlast : pairs = [] ∨ lastKey pairs < key)
    (hmost : ∀ p ∈ pairs, p.2.length ≤ most)
    (hroom : (∀ b', b.add key output = .ok b' → b'.store.nodes.length ≤ 2 ^ 64) ∨
      arcRoom most * keyBytes pairs ≤ 2 ^ 64) :
    ∃ b', b.add key output = .ok b' ∧ Holds most b' (pairs ++ [(key, output)]) := by
  obtain ⟨hsize, ⟨below, hpairs, hspells⟩, hopen, hsound, hblast, hspine, hfits⟩ := h
  have hfree : ¬ (0 < b.size ∧ ¬ b.last < key) := by
    rintro ⟨hpos, hnot⟩
    rcases hlast with rfl | hlt
    · rw [hsize] at hpos
      exact absurd hpos (Nat.lt_irrefl 0)
    · exact hnot (hblast ▸ hlt)
  rw [add, if_neg hfree] at hroom ⊢
  cases key with
  | nil =>
    -- Only the first key can be empty.
    obtain rfl : pairs = [] := by
      rcases hlast with hnil | hlt
      · exact hnil
      · exact absurd hlt (List.not_lt_nil _)
    obtain ⟨hempty, rfl⟩ := List.append_eq_nil_iff.mp hpairs.symm
    refine ⟨_, rfl, ?_, ⟨[], ?_, hspells⟩, hopen, hsound, hblast, hspine, ?_⟩
    · simp [hsize]
    · rfl
    · simpa using hfits
  | cons label rest =>
    have hlt : b.path.spine < label :: rest := by
      rw [hspine, hblast]
      rcases hlast with rfl | hlt
      · exact List.nil_lt_cons ..
      · exact hlt
    obtain ⟨path', s', laid, hinsert, hgrown, hspells', hspine', hfinal, hlaid⟩ :=
      Path.insert_spec hwidth (label :: rest) output hspells hsound hlt
        (fun p hp => hmost p (hpairs ▸ List.mem_append_right _ hp))
        (hroom.imp (fun h => h _ rfl) (Nat.le_trans hfits))
    have hstore := hgrown.room
    refine ⟨{ b with path := path', store := s', last := label :: rest, size := b.size + 1 }, ?_,
      ?_, ⟨_, ?_, hspells'⟩, hfinal.trans hopen, hgrown.sound,
      (lastKey_append pairs (label :: rest, output)).symm, hspine', ?_⟩
    · simp only [List.isEmpty_cons, Bool.false_eq_true, if_false, hinsert]
    · rw [List.length_append, hsize]
      rfl
    · rw [hpairs, List.append_assoc]
    · have hgoal : arcRoom most * (laid + path'.openArcs)
          ≤ arcRoom most * (b.path.openArcs + (label :: rest).length) :=
        Nat.mul_le_mul_left _ hlaid
      rw [Nat.mul_add, Nat.mul_add] at hgoal
      simp only [keyBytes_append, keyBytes_cons, keyBytes_nil, Nat.mul_add, Nat.add_zero]
      omega

/-- **Keys in order are all taken.** -/
theorem addAll_holds {most : Nat} (hwidth : most < 2 ^ 32) (rest : Pairs) :
    ∀ {b : Builder} {pairs : Pairs}, Holds most b pairs → (pairs ++ rest).Increasing →
      (∀ p ∈ pairs ++ rest, p.2.length ≤ most) →
      arcRoom most * keyBytes (pairs ++ rest) ≤ 2 ^ 64 →
      ∃ b', b.addAll rest = .ok b' ∧ Holds most b' (pairs ++ rest) := by
  induction rest with
  | nil => intro b pairs h _ _ _; exact ⟨b, rfl, by rwa [List.append_nil]⟩
  | cons p rest ih =>
    intro b pairs h hincreasing hmost hroom
    have hlast : pairs = [] ∨ lastKey pairs < p.1 := by
      rcases List.eq_nil_or_concat pairs with rfl | ⟨front, q, rfl⟩
      · exact .inl rfl
      · rw [List.concat_eq_append] at hincreasing ⊢
        rw [lastKey_append]
        have hcross := (List.pairwise_append.mp hincreasing).2.2
        exact .inr (hcross q (by simp) p (List.mem_cons_self ..))
    have hle : arcRoom most * keyBytes pairs ≤ arcRoom most * keyBytes (pairs ++ p :: rest) := by
      rw [keyBytes_append, Nat.mul_add]
      exact Nat.le_add_right ..
    obtain ⟨b₁, hadd, hb₁⟩ := add_spec hwidth h hlast
      (fun q hq => hmost q (List.mem_append_left _ hq)) (.inr (Nat.le_trans hle hroom))
    have happend : pairs ++ p :: rest = pairs ++ [p] ++ rest := by simp
    rw [happend] at hincreasing hmost hroom ⊢
    obtain ⟨b₂, hall, hb₂⟩ := ih hb₁ hincreasing hmost hroom
    refine ⟨b₂, ?_, hb₂⟩
    show (b.add p.1 p.2 >>= fun b => b.addAll rest) = .ok b₂
    rw [hadd]
    exact hall

/-- **The finished transducer maps exactly the keys.** -/
theorem finish_spec {most : Nat} (hwidth : most < 2 ^ 32) {b : Builder} {pairs : Pairs}
    (h : Holds most b pairs) (hmost : ∀ p ∈ pairs, p.2.length ≤ most)
    (hroom : b.finish.nodes.length ≤ 2 ^ 64 ∨ arcRoom most * keyBytes pairs ≤ 2 ^ 64) :
    b.finish.Denotes pairs ∧ b.finish.nodes.length ≤ arcRoom most * keyBytes pairs := by
  obtain ⟨hsize, ⟨below, hpairs, hspells⟩, hopen, hsound, -, -, hfits⟩ := h
  obtain ⟨target, s', strict, hfreeze, hgrown, hbelow, htarget⟩ :=
    Path.freeze_spec hwidth b.path hspells hsound
      (fun p hp => hmost p (hpairs ▸ List.mem_append_right _ hp))
      (hroom.imp_right (Nat.le_trans hfits))
  have hstore := hgrown.room
  rw [hopen] at hbelow
  rw [finish, hfreeze]
  refine ⟨⟨hsize, strict, ?_, htarget⟩, ?_⟩
  · rw [hpairs, hbelow]
    rfl
  · dsimp only
    omega

end Builder

/-- **A transducer is built of keys in order**, and takes as much room as they allow. -/
theorem build_spec {most : Nat} {pairs : Pairs} (hwidth : most < 2 ^ 32)
    (hincreasing : pairs.Increasing) (hmost : ∀ p ∈ pairs, p.2.length ≤ most)
    (hroom : arcRoom most * keyBytes pairs ≤ 2 ^ 64) :
    ∃ b, ({} : Builder).addAll pairs = .ok b ∧ b.finish.Denotes pairs ∧
      b.finish.nodes.length ≤ arcRoom most * keyBytes pairs := by
  obtain ⟨b, hall, hb⟩ :=
    Builder.addAll_holds hwidth pairs (Builder.holds_empty most) hincreasing hmost hroom
  exact ⟨b, hall, Builder.finish_spec hwidth hb hmost (.inr hroom)⟩

end Lexicon.Transducer

import Lexicon.Proofs.Reading
import Lexicon.Transducer.Basic

/-!
# Nodes are read back

A node lies at an address if the bytes there are those of its arcs (`NodeAt`). Reading all arcs at
such an address gives them (`arcs_eq`), and looking for a label finds the one arc with it
(`arc?_eq`). A node stays where it is when more nodes are laid out behind it, and its bytes
determine its arcs, so nodes with equal bytes can be shared.
-/

namespace Lexicon

open Read

namespace Arc

/-- What the format asks of an arc. -/
structure Storable (a : Arc) : Prop where
  output_lt : a.output.length < 2 ^ 32
  finalOutput_lt : a.finalOutput.length < 2 ^ 32
  target_lt : ∀ address, a.target = some address → address < 2 ^ 64
  leads : a.target = none → a.final = true

/-- The flags say which parts of an arc are there. -/
theorem testBit_flags (a : Arc) :
    a.flags.toNat.testBit 0 = a.final ∧ a.flags.toNat.testBit 1 = !a.output.isEmpty ∧
      a.flags.toNat.testBit 2 = !a.finalOutput.isEmpty ∧
      a.flags.toNat.testBit 3 = a.target.isNone := by
  rw [flags]
  generalize a.final = final
  generalize a.output.isEmpty = output
  generalize a.finalOutput.isEmpty = finalOutput
  generalize a.target.isNone = target
  revert final output finalOutput target
  decide

/-- A byte string that is only stored if there is something in it, in front of what follows. -/
theorem takes_optional_block {β : Type} {bs cs : Bytes} {b : β} {f : Bytes → Read β}
    (hbs : bs.length < 2 ^ 32) (hf : Takes (f bs) cs b) :
    Takes (if (!bs.isEmpty) = true then Read.block >>= f else pure [] >>= f)
      (Item.encodeAll (if bs.isEmpty then [] else [.block bs]) ++ cs) b := by
  cases bs with
  | nil => exact hf
  | cons b bs =>
    simp only [List.isEmpty_cons, Bool.not_false, if_true, Bool.false_eq_true, if_false,
      Item.encodeAll_singleton]
    exact (takes_block_item hbs).bind hf

theorem items_eq (a : Arc) :
    a.items = [.byte a.label, .byte a.flags]
      ++ (if a.output.isEmpty then [] else [.block a.output])
      ++ (if a.finalOutput.isEmpty then [] else [.block a.finalOutput])
      ++ a.target.toList.map .nat64 := by
  obtain ⟨label, output, final, finalOutput, target⟩ := a
  cases target <;> rfl

/-- **An arc is read back.** -/
theorem takes_read {a : Arc} (h : a.Storable) : Takes read (Item.encodeAll a.items) a := by
  obtain ⟨hfinal, houtput, hfinalOutput, htarget⟩ := testBit_flags a
  -- the target comes last, and with it the arc is put together
  have hread : Takes (do
      let target ← if a.target.isNone then pure none else some <$> Read.vlong
      if target.isNone && !a.final then throw (.transducer .deadEnd)
      return ({ label := a.label, output := a.output, final := a.final
                finalOutput := a.finalOutput, target } : Arc))
      (Item.encodeAll (a.target.toList.map .nat64)) a := by
    obtain ⟨label, output, final, finalOutput, target⟩ := a
    cases target with
    | none =>
      obtain rfl := h.leads rfl
      exact takes_pure _
    | some address =>
      show Takes _ (Item.encodeAll [.nat64 address]) _
      rw [Item.encodeAll_singleton]
      refine ((takes_nat64 (h.target_lt address rfl)).map some).bind_last ?_
      exact takes_pure _
  have hitems : Item.encodeAll a.items = [a.label] ++ ([a.flags] ++
      (Item.encodeAll (if a.output.isEmpty then [] else [.block a.output])
      ++ (Item.encodeAll (if a.finalOutput.isEmpty then [] else [.block a.finalOutput])
      ++ Item.encodeAll (a.target.toList.map .nat64)))) := by
    simp only [items_eq, Item.encodeAll_append, Item.encodeAll_cons, Item.encodeAll_nil,
      List.append_nil, List.append_assoc]
    rfl
  rw [hitems, read]
  refine (takes_byte a.label).bind ((takes_byte a.flags).bind ?_)
  simp only [hfinal, houtput, hfinalOutput, htarget]
  refine takes_optional_block h.output_lt ?_
  refine takes_optional_block h.finalOutput_lt ?_
  exact hread

end Arc

namespace Transducer

/-- Labels in order, each once. -/
def Sorted (arcs : List Arc) : Prop := arcs.Pairwise fun a b => a.label < b.label

/-- A node with these arcs lies at the address. -/
structure NodeAt (nodes : Bytes) (address : Nat) (arcs : List Arc) : Prop where
  bytes : ∃ before after, nodes = before ++ (Item.encodeAll (nodeItems arcs) ++ after) ∧
    before.length = address
  nonempty : arcs ≠ []
  sorted : Sorted arcs
  storable : ∀ a ∈ arcs, a.Storable

/-- Arcs in order have labels of their own, so at most 256. -/
theorem length_add_le {arcs : List Arc} (hsorted : Sorted arcs) :
    ∀ low : Nat, low ≤ 256 → (∀ a ∈ arcs, low ≤ a.label.toNat) → arcs.length + low ≤ 256 := by
  induction arcs with
  | nil => intro low hlow _; simpa using hlow
  | cons a arcs ih =>
    intro low hlow hlabels
    rw [Sorted, List.pairwise_cons] at hsorted
    have hfirst := hlabels a (List.mem_cons_self ..)
    have hlt := a.label.toNat_lt
    have := ih hsorted.2 (a.label.toNat + 1) (by omega) fun b hb =>
      UInt8.lt_iff_toNat_lt.mp (hsorted.1 b hb)
    rw [List.length_cons]
    omega

/-- There are no more arcs than labels. -/
theorem length_le_of_sorted {arcs : List Arc} (h : Sorted arcs) : arcs.length ≤ 256 :=
  length_add_le h 0 (Nat.zero_le _) fun _ _ => Nat.zero_le _

/-- As many arcs are read as were written. -/
theorem takes_readArcs {arcs : List Arc} (h : ∀ a ∈ arcs, a.Storable) :
    Takes (readArcs arcs.length) (Item.encodeAll (arcs.flatMap Arc.items)) arcs := by
  induction arcs with
  | nil => exact takes_pure _
  | cons a arcs ih =>
    rw [List.flatMap_cons, Item.encodeAll_append, List.length_cons, readArcs]
    refine (Arc.takes_read (h a (List.mem_cons_self ..))).bind ?_
    exact (ih fun b hb => h b (List.mem_cons_of_mem _ hb)).bind_pure (f := (a :: ·))

/-- A node stays where it is when others are laid out behind it. -/
theorem NodeAt.mono {nodes more : Bytes} {address : Nat} {arcs : List Arc}
    (h : NodeAt nodes address arcs) : NodeAt (nodes ++ more) address arcs := by
  obtain ⟨⟨before, after, hnodes, hbefore⟩, hne, hsorted, hstorable⟩ := h
  refine ⟨⟨before, after ++ more, ?_, hbefore⟩, hne, hsorted, hstorable⟩
  rw [hnodes, List.append_assoc, List.append_assoc]

/-- A node is within the bytes of the nodes. -/
theorem NodeAt.address_lt {nodes : Bytes} {address : Nat} {arcs : List Arc}
    (h : NodeAt nodes address arcs) : address < nodes.length := by
  obtain ⟨before, after, hnodes, hbefore⟩ := h.bytes
  have hpos : 0 < (Item.encodeAll (nodeItems arcs)).length := by
    rw [nodeItems, Item.encodeAll_cons, List.length_append]
    have := List.length_pos_iff.mpr (Varint.encode_ne_nil (UInt32.ofNat arcs.length).toNat)
    show 0 < (Varint.encode _).length + _
    omega
  rw [hnodes, List.length_append, List.length_append]
  omega

/-- Nodes with equal bytes have equal arcs. -/
theorem eq_of_encode_eq {arcs arcs' : List Arc} (hsorted : Sorted arcs) (hsorted' : Sorted arcs')
    (h : ∀ a ∈ arcs, a.Storable) (h' : ∀ a ∈ arcs', a.Storable)
    (heq : Item.encodeAll (nodeItems arcs) = Item.encodeAll (nodeItems arcs')) :
    arcs = arcs' := by
  -- both are what a reader makes of the same bytes
  have hread : ∀ {arcs : List Arc}, Sorted arcs → (∀ a ∈ arcs, a.Storable) →
      Takes (do readArcs (← Read.vint)) (Item.encodeAll (nodeItems arcs)) arcs := by
    intro arcs hsorted h
    have := length_le_of_sorted hsorted
    rw [nodeItems, Item.encodeAll_cons]
    exact (takes_nat32 (by omega)).bind (takes_readArcs h)
  have hone := (hread hsorted h) 0 []
  rw [heq, (hread hsorted' h') 0 []] at hone
  exact (EStateM.Result.ok.inj hone).1.symm

variable {t : Transducer}

/-- Running a read at a node. -/
theorem atNode_eq {α : Type} {address : Nat} {arcs : List Arc} {r : Read α} {a : α}
    (h : NodeAt t.nodes address arcs)
    (hr : ∀ rest, ∃ c, r ⟨address, Item.encodeAll (nodeItems arcs) ++ rest⟩ = .ok a c) :
    t.atNode address r = .ok a := by
  obtain ⟨before, after, hnodes, hbefore⟩ := h.bytes
  obtain ⟨c, hc⟩ := hr after
  have hat : Cursor.at? t.nodes address
      = .ok ⟨address, Item.encodeAll (nodeItems arcs) ++ after⟩ := by
    rw [Cursor.at?, if_pos (Nat.le_of_lt h.address_lt), hnodes, ← hbefore, List.drop_left]
  simp only [atNode, hat, bind, Except.bind, hc]
  rfl

/-- **All arcs of a node are read.** -/
theorem arcs_eq {address : Nat} {arcs : List Arc} (h : NodeAt t.nodes address arcs) :
    t.arcs address = .ok arcs := by
  have hlength := length_le_of_sorted h.sorted
  have hpos := List.length_pos_iff.mpr h.nonempty
  refine atNode_eq h fun rest => ⟨_, Takes.bind (takes_nat32 (by omega)) ?_ address rest⟩
  rw [if_neg (by omega)]
  exact takes_readArcs h.storable

/-- A search among arcs in order finds the arc with the label, if there is one. -/
theorem seekArc_eq {arcs : List Arc} (label : UInt8) (hsorted : Sorted arcs)
    (h : ∀ a ∈ arcs, a.Storable) :
    ∀ (position : Nat) (rest : Bytes), ∃ c,
      seekArc label arcs.length ⟨position, Item.encodeAll (arcs.flatMap Arc.items) ++ rest⟩
        = .ok (arcs.find? (·.label = label)) c := by
  induction arcs with
  | nil => intro position rest; exact ⟨_, rfl⟩
  | cons a arcs ih =>
    intro position rest
    rw [Sorted, List.pairwise_cons] at hsorted
    obtain ⟨c, hc⟩ := ih hsorted.2 (fun b hb => h b (List.mem_cons_of_mem _ hb))
      (position + (Item.encodeAll a.items).length) rest
    rw [List.flatMap_cons, Item.encodeAll_append, List.append_assoc, List.length_cons, seekArc,
      (Arc.takes_read (h a (List.mem_cons_self ..))).step]
    by_cases heq : a.label = label
    · rw [if_pos heq, List.find?_cons_of_pos (by simpa using heq)]
      exact ⟨_, rfl⟩
    · rw [if_neg heq, List.find?_cons_of_neg (by simpa using heq)]
      by_cases hlt : label < a.label
      · -- All labels from here on are above the one looked for.
        have hnone : arcs.find? (·.label = label) = none := by
          rw [List.find?_eq_none]
          intro b hb hlabel
          have hab := hsorted.1 b hb
          rw [of_decide_eq_true hlabel] at hab
          exact absurd hlt (UInt8.lt_asymm hab)
        rw [if_pos hlt, hnone]
        exact ⟨_, rfl⟩
      · rw [if_neg hlt]
        exact ⟨c, hc⟩

/-- **The arc with a label is found.** -/
theorem arc?_eq {address : Nat} {arcs : List Arc} (h : NodeAt t.nodes address arcs)
    (label : UInt8) : t.arc? address label = .ok (arcs.find? (·.label = label)) := by
  have hlength := length_le_of_sorted h.sorted
  refine atNode_eq h fun rest => ?_
  obtain ⟨c, hc⟩ := seekArc_eq label h.sorted h.storable
    (address + (Item.nat32 arcs.length).encode.length) rest
  refine ⟨c, ?_⟩
  rw [nodeItems, Item.encodeAll_cons, List.append_assoc, (takes_nat32 (by omega)).step]
  exact hc

end Transducer

end Lexicon

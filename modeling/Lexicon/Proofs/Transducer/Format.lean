import Lexicon.Proofs.Transducer.Keys
import Lexicon.Transducer.Format

/-!
# Stored transducers are read back

The reader checks that the root lies among the nodes. Besides that, lengths and numbers have to be
such as the format can hold: `takes_load` asks for this (`Loadable`), and `gives_load` says that it
is so of every transducer that was read.
-/

namespace Lexicon.Transducer

open Read

/-- The items of a part that may be missing: a marker, and the part after it. -/
def optionalItems {α : Type} (item : α → Item) (part : Option α) : List Item :=
  part.elim [.byte 0] fun a => [.byte 1, item a]

/-- A part that may be missing is read back, missing or not. -/
theorem takes_optional {α : Type} {part : Read α} {bad : Nat → TransducerFault} {item : α → Item}
    {x : Option α} (h : ∀ a, x = some a → Takes part (item a).encode a) :
    Takes (optional part bad) (Item.encodeAll (optionalItems item x)) x := by
  rw [optional]
  cases x with
  | none =>
    rw [optionalItems, Option.elim_none, Item.encodeAll_singleton]
    exact (takes_byte 0).bind_last (takes_pure none)
  | some a =>
    rw [optionalItems, Option.elim_some, Item.encodeAll_cons, Item.encodeAll_singleton]
    refine (takes_byte 1).bind ?_
    exact (h a rfl).map some

/-- Parts that may be missing are saved behind a byte. -/
theorem saveItems_eq (t : Transducer) :
    t.saveItems = [.nat64 t.size] ++ optionalItems .block t.emptyOutput
      ++ optionalItems .nat64 t.root ++ [.nat64 t.nodes.length, .bytes t.nodes] := by
  obtain ⟨nodes, root, emptyOutput, size⟩ := t
  cases root <;> cases emptyOutput <;> rfl

/-! ## What can be stored -/

/-- The numbers and lengths of a transducer are such as the format can hold, and its root lies among
its nodes. -/
structure Loadable (t : Transducer) : Prop where
  size : t.size < 2 ^ 64
  nodes : t.nodes.length < 2 ^ 64
  output : ∀ output, t.emptyOutput = some output → output.length < 2 ^ 32
  root : ∀ address, t.root = some address → address < t.nodes.length

/-- **A stored transducer is read back.** -/
theorem takes_load {t : Transducer} (h : t.Loadable) : Takes load t.save t := by
  have hempty : Takes (optional block .badEmptyMarker)
      (Item.encodeAll (optionalItems .block t.emptyOutput)) t.emptyOutput :=
    takes_optional fun output hcase => takes_block_item (h.output output hcase)
  have hroot : Takes (optional vlong .badRootMarker)
      (Item.encodeAll (optionalItems .nat64 t.root)) t.root :=
    takes_optional fun root hcase => takes_nat64 (Nat.lt_trans (h.root root hcase) h.nodes)
  rw [save, saveItems_eq, Item.encodeAll_append, Item.encodeAll_append, Item.encodeAll_append,
    Item.encodeAll_singleton, List.append_assoc, List.append_assoc, load]
  refine (takes_nat64 h.size).bind (hempty.bind (hroot.bind ?_))
  rw [Item.encodeAll_cons, Item.encodeAll_singleton]
  refine (takes_nat64 h.nodes).bind ((takes_bytes t.nodes).bind_last ?_)
  obtain ⟨nodes, root, emptyOutput, size⟩ := t
  cases root with
  | none => exact takes_pure _
  | some root =>
    have hlt : root < nodes.length := h.root root rfl
    show Takes (if nodes.length ≤ root then _ else _) [] _
    rw [if_neg (by omega)]
    exact takes_pure _

/-- The root is a node of the transducer. -/
theorem Denotes.root_lt {t : Transducer} {pairs : Pairs} (h : t.Denotes pairs) {address : Nat}
    (hroot : t.root = some address) : address < t.nodes.length := by
  obtain ⟨-, below, -, hbelow⟩ := h
  rw [hroot] at hbelow
  obtain ⟨arcs, hlt, -⟩ := hbelow
  exact hlt

/-- A transducer that was built can be loaded if its counts fit. -/
theorem Denotes.loadable {t : Transducer} {pairs : Pairs} (h : t.Denotes pairs)
    (hsize : pairs.length < 2 ^ 64) (hnodes : t.nodes.length < 2 ^ 64)
    (houtput : ∀ output, t.emptyOutput = some output → output.length < 2 ^ 32) : t.Loadable :=
  ⟨h.size ▸ hsize, hnodes, houtput, fun _ hroot => h.root_lt hroot⟩

/-! ## What is read -/

/-- What an optional part gives is known if it is there. -/
theorem gives_optional {α : Type} {part : Read α} {P : α → Prop} (h : Gives part P)
    (bad : Nat → TransducerFault) : Gives (optional part bad) fun x => ∀ a, x = some a → P a := by
  refine (gives_any byte).bind fun marker _ => ?_
  split
  · exact gives_pure fun a hnone => by cases hnone
  · exact h.map fun a ha b hb => by cases hb; exact ha
  · exact gives_throw _

/-- **Whatever is read can be stored.** -/
theorem gives_load : Gives load Loadable := by
  refine (gives_varint 64 _).bind fun size hsize => ?_
  refine (gives_optional gives_block _).bind fun emptyOutput houtput => ?_
  refine (gives_optional (gives_any vlong) _).bind fun root _ => ?_
  refine (gives_varint 64 _).bind fun length hlength => ?_
  refine (gives_bytes length).bind fun nodes hnodes => ?_
  subst hnodes
  cases root with
  | none => exact gives_pure ⟨hsize, hlength, houtput, fun _ hnone => by cases hnone⟩
  | some address =>
    by_cases hbeyond : nodes.length ≤ address
    · simp only [if_pos hbeyond]
      exact (gives_throw (P := fun _ => False) _).bind fun _ => False.elim
    · simp only [if_neg hbeyond]
      refine gives_pure ⟨hsize, hlength, houtput, fun found hfound => ?_⟩
      cases hfound
      exact Nat.lt_of_not_le hbeyond

end Lexicon.Transducer

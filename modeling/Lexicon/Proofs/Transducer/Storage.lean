import Lexicon.Proofs.Transducer.Calls
import Lexicon.Proofs.Transducer.Format

/-!
# Built transducers are stored and read back

> **`load_save`** — what was built is read back as it was, and so is what was read and stored again.

The reader asks that the root lies among the nodes. Of a built transducer that is so however its
keys came and whatever they put out: a node is laid out at the end of the nodes or was laid out
before (`Store.Within`).
-/

namespace Lexicon.Transducer

namespace Store

/-- What the store knows of lies among its nodes. -/
def Within (s : Store) : Prop :=
  ∀ bytes address, (bytes, address) ∈ s.known → address < s.nodes.length

/-- A node is never written as nothing. -/
theorem length_node_pos (arcs : List Arc) : 0 < (Item.encodeAll (nodeItems arcs)).length := by
  rw [nodeItems, Item.encodeAll_cons, List.length_append]
  exact Nat.add_pos_left (List.length_pos_iff.mpr (Varint.encode_ne_nil _)) _

/-- A node with arcs has a place, which lies among the nodes. -/
theorem Within.place {s : Store} (h : s.Within) (arcs : List Arc) (hne : arcs ≠ []) :
    ∃ address s', s.place arcs = (some address, s') ∧ s'.Within ∧ address < s'.nodes.length := by
  rw [Store.place, if_neg (by simpa using hne)]
  dsimp only
  cases hlookup : s.known.lookup (Item.encodeAll (nodeItems arcs)) with
  | some address =>
    obtain ⟨front, back, hknown, -⟩ := List.lookup_eq_some_iff.mp hlookup
    have hmem : (Item.encodeAll (nodeItems arcs), address) ∈ s.known := by
      rw [hknown]
      simp
    exact ⟨address, s, rfl, h, h _ address hmem⟩
  | none =>
    have hgrows : s.nodes.length < (s.nodes ++ Item.encodeAll (nodeItems arcs)).length := by
      have := length_node_pos arcs
      rw [List.length_append]
      omega
    refine ⟨_, _, rfl, fun bytes address hmem => ?_, hgrows⟩
    rcases List.mem_cons.mp hmem with heq | hmem
    · cases heq
      exact hgrows
    · exact Nat.lt_trans (h bytes address hmem) hgrows

end Store

namespace Path

/-- **A laid out path starts among the nodes**, unless it is the end of a key. -/
theorem freeze_within (path : Path) : ∀ {s : Store}, s.Within →
    (path.freeze s).2.Within ∧
      ∀ address, (path.freeze s).1 = some address → address < (path.freeze s).2.nodes.length := by
  induction path with
  | tip final => exact fun h => ⟨h, fun _ hnone => by cases hnone⟩
  | node final arcs label output child ih =>
    intro s h
    obtain ⟨address, s', hplace, hwithin, hlt⟩ := (ih h).1.place
      (arcs ++ [closing label output child (child.freeze s).1]) (by simp)
    have hfreeze : (node final arcs label output child).freeze s = (some address, s') := hplace
    rw [hfreeze]
    refine ⟨hwithin, fun other hother => ?_⟩
    cases hother
    exact hlt

/-- Inserting a key keeps the store within its addresses. -/
theorem insert_within (key : Bytes) : ∀ {path : Path} {s : Store} (output : Bytes), s.Within →
    (path.insert key output s).2.Within := by
  induction key with
  | nil => intro path s output h; rw [insert]; exact h
  | cons label rest ih =>
    intro path s output h
    cases path with
    | tip => exact h
    | node final arcs last old child =>
      rw [insert]
      split
      · exact ih _ h
      · exact (child.freeze_within h).1

end Path

namespace Builder

/-- A call keeps what is known among the nodes. -/
theorem within_attempt {b : Builder} (h : b.store.Within) (call : Bytes × Bytes) :
    (b.attempt call).store.Within := by
  obtain ⟨key, output⟩ := call
  rw [Builder.attempt, add]
  split_ifs
  · exact h
  · exact h
  · exact Path.insert_within key output h

/-- Calls keep the store within its addresses. -/
theorem within_attempts {calls : Pairs} : ∀ {b : Builder}, b.store.Within →
    (b.attempts calls).store.Within := by
  induction calls with
  | nil => exact fun h => h
  | cons call calls ih => exact fun h => ih (within_attempt h call)

/-- **The root of a built transducer lies among its nodes.** -/
theorem root_lt {b : Builder} (h : b.store.Within) {address : Nat}
    (hroot : b.finish.root = some address) : address < b.finish.nodes.length :=
  (b.path.freeze_within h).2 address hroot

/-- What was built can be stored, if the lengths fit. -/
theorem loadable_finish (calls : Pairs) (hsize : (attempts {} calls).finish.size < 2 ^ 64)
    (hnodes : (attempts {} calls).finish.nodes.length < 2 ^ 64)
    (houtput : ∀ output, (attempts {} calls).finish.emptyOutput = some output →
      output.length < 2 ^ 32) :
    (attempts {} calls).finish.Loadable :=
  ⟨hsize, hnodes, houtput, fun _ => root_lt (within_attempts fun _ _ hmem => by cases hmem)⟩

/-- **Transducers are stored and read back**, whatever stands behind them: one that was built by any
calls is read as it was, and the reader ends just behind it; and so is one that was read from any
bytes and stored again. The numbers of keys and of bytes have 64 bits, and the length of what the
empty key puts out is stored in 32. -/
theorem load_save :
    (∀ calls : Pairs, (attempts {} calls).finish.size < 2 ^ 64 →
      (attempts {} calls).finish.nodes.length < 2 ^ 64 →
      (∀ output, (attempts {} calls).finish.emptyOutput = some output → output.length < 2 ^ 32) →
      Read.Takes load (attempts {} calls).finish.save (attempts {} calls).finish) ∧
    ∀ c t c', load c = .ok t c' → Read.Takes load t.save t := by
  constructor
  · intro calls hsize hnodes houtput
    exact takes_load (loadable_finish calls hsize hnodes houtput)
  · intro c t c' hload
    exact takes_load (gives_load c t c' hload)

/-- Bytes behind a saved transducer are left alone, wherever it starts. -/
theorem load_save_disorder :
    (attempts {} disorder).finish.size < 2 ^ 64 ∧
      (attempts {} disorder).finish.nodes.length < 2 ^ 64 ∧
      (attempts {} disorder).finish.emptyOutput = some [5] ∧
      load ⟨3, (attempts {} disorder).finish.save ++ [1, 2]⟩
        = .ok (attempts {} disorder).finish
            ⟨3 + (attempts {} disorder).finish.save.length, [1, 2]⟩ := by
  have hsize : (attempts {} disorder).finish.size < 2 ^ 64 := by decide +kernel
  have hnodes : (attempts {} disorder).finish.nodes.length < 2 ^ 64 := by decide +kernel
  have hempty : (attempts {} disorder).finish.emptyOutput = some [5] := by decide +kernel
  refine ⟨hsize, hnodes, hempty, ?_⟩
  refine load_save.1 disorder hsize hnodes (fun output houtput => ?_) 3 [1, 2]
  rw [hempty, Option.some.injEq] at houtput
  rw [← houtput]
  decide

end Builder

end Lexicon.Transducer

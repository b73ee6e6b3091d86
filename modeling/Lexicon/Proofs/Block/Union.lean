import Lexicon.Proofs.Block.Index
import Lexicon.Proofs.Transducer.Calls

/-!
# The index of a run is a union

The index of a run is built from the indexes of its sub-blocks: each is listed, and what it lists is
added to a new transducer behind the prefix of the run itself. So what a transducer maps has to
survive being listed and built again, on every level of the tree, whatever the transducers below
were built of (`Transducer.Built`).

> **`WrittenBlock.compileIndex_unites`** — the index maps just what the parts do, in their order; if
> their keys are in no order, the first that does not come after the one before it is refused.
-/

namespace Lexicon

open Transducer (accepted)
open Transducer.Builder (attempts lastKey)

/-- The transducer was built by calls of which these pairs were accepted. Lengths have 32 bits in
the format, and offsets of nodes have 64. -/
structure Transducer.Built (t : Transducer) (pairs : Pairs) : Prop where
  calls : ∃ calls, t = (attempts {} calls).finish ∧ pairs = accepted calls ∧
    ∀ p ∈ calls, p.2.length < 2 ^ 32
  room : t.nodes.length ≤ 2 ^ 64

/-- A transducer that was built denotes its pairs. -/
theorem Transducer.Built.denotes {t : Transducer} {pairs : Pairs} (h : t.Built pairs) :
    t.Denotes pairs := by
  obtain ⟨calls, rfl, rfl, houtputs⟩ := h.calls
  exact Builder.denotes_attempts houtputs h.room

/-- The outputs of a transducer that was built have lengths of 32 bits. -/
theorem Transducer.Built.output_lt {t : Transducer} {pairs : Pairs} (h : t.Built pairs) :
    ∀ p ∈ pairs, p.2.length < 2 ^ 32 := by
  obtain ⟨calls, -, rfl, houtputs⟩ := h.calls
  exact fun p hp => houtputs p (Transducer.mem_acceptedFrom calls hp)

namespace WrittenBlock

variable {first : WrittenBlock} {rest : List WrittenBlock} {parts : List Pairs}

/-- What the index of a run is to map: the prefix of the run to where its blocks are, and then what
the indexes of its sub-blocks map, one after the other. -/
def union (first : WrittenBlock) (rest : List WrittenBlock) (parts : List Pairs) : Pairs :=
  (first.stem, (location first rest).encode) :: parts.flatten

/-- Without a floor there is one block only. -/
theorem Rowed.rest_eq_nil (h : Rowed first rest) (hfloor : first.isFloor = false) : rest = [] := by
  by_contra hne
  rw [h.isFloor hne] at hfloor
  cases hfloor

/-- Every sibling takes a byte at least. -/
theorem length_siblings_le_encode {l : Location} (hfloor : l.isFloor = true) :
    l.siblings.length ≤ l.encode.length := by
  have hroom := Location.length_le_siblingItems l.fp l.siblings
  rw [Location.encode, Location.items, if_pos hfloor, Item.encodeAll_cons, Item.encodeAll_cons,
    List.length_append, List.length_append]
  omega

/-- Where the blocks of a run are is read back, if the bytes that tell it are not too many. -/
theorem Rowed.decode_location (h : Rowed first rest) (hnear : ∀ b ∈ first :: rest, b.fp < 2 ^ 62)
    (hshort : (location first rest).encode.length < 2 ^ 32) :
    Location.decode (location first rest).encode = .ok (location first rest) := by
  refine Location.decode_encode ⟨hnear first (List.mem_cons_self ..), fun s hs => ?_, ?_,
    fun hfloor => ?_⟩
  · obtain ⟨b, hb, rfl⟩ := List.mem_map.mp hs
    exact ⟨h.after b hb, hnear b (List.mem_cons_of_mem _ hb)⟩
  · cases hfloor : (location first rest).isFloor with
    | false =>
      rw [location, h.rest_eq_nil hfloor]
      exact Nat.zero_lt_succ _
    | true => exact Nat.lt_of_le_of_lt (length_siblings_le_encode hfloor) hshort
  · rw [location, h.rest_eq_nil hfloor]
    rfl

/-- The run of a first block stands for it. -/
structure Heads (first : WrittenBlock) (b : SubBlock) : Prop where
  stem : b.stem = first.stem
  fp : b.fp = first.fp
  hasTerms : b.hasTerms = first.hasTerms
  isFloor : b.isFloor = first.isFloor
  lead : b.lead = first.lead

/-- What the parts map is added behind the prefix of the run. -/
theorem asRun_eq {l : Location} {indexes : List Transducer}
    (h : indexes.mapM Transducer.entries = .ok parts) :
    first.asRun l indexes
      = ({} : Transducer.Builder).addAll ((first.stem, l.encode) :: parts.flatten) >>= fun b =>
        .ok ⟨first.stem, first.fp, first.hasTerms, first.isFloor, first.lead, b.finish⟩ := by
  rw [asRun, h]
  rfl

/-- What the index of a run is built of. -/
theorem compileIndex_eq_addAll (hrow : Rowed first rest)
    (hparts : List.Forall₂ Transducer.Built ((first :: rest).flatMap (·.subIndexes)) parts) :
    compileIndex (first :: rest)
      = ({} : Transducer.Builder).addAll (union first rest parts) >>= fun b =>
        .ok ⟨first.stem, first.fp, first.hasTerms, first.isFloor, first.lead, b.finish⟩ := by
  rw [compileIndex_eq hrow, asRun_eq (mapM_entries (hparts.imp fun _ _ h => h.denotes)), union]

/-- In order, all of it is accepted. -/
theorem compileIndex_of_increasing (hrow : Rowed first rest)
    (hparts : List.Forall₂ Transducer.Built ((first :: rest).flatMap (·.subIndexes)) parts)
    (hincreasing : (union first rest parts).Increasing) :
    compileIndex (first :: rest)
      = .ok ⟨first.stem, first.fp, first.hasTerms, first.isFloor, first.lead,
        (attempts {} (union first rest parts)).finish⟩ := by
  rw [compileIndex_eq_addAll hrow hparts, Transducer.Builder.addAll_of_increasing hincreasing]
  rfl

/-- Out of order, the first key that does not come after the one before it is refused. -/
theorem compileIndex_of_not_increasing (hrow : Rowed first rest)
    (hparts : List.Forall₂ Transducer.Built ((first :: rest).flatMap (·.subIndexes)) parts)
    (hnot : ¬ (union first rest parts).Increasing) :
    ∃ (before after : Pairs) (key output : Bytes),
      union first rest parts = before ++ (key, output) :: after ∧ before ≠ [] ∧
        before.Increasing ∧ ¬ lastKey before < key ∧
        compileIndex (first :: rest)
          = .error (.transducer (.keyOutOfOrder key (lastKey before))) := by
  have hstart : Transducer.Builder.Tracks {} [] := ⟨rfl, rfl⟩
  obtain ⟨before, after, key, output, hsplit, hne, hbefore, hlast, herror⟩ :=
    hstart.addAll_refused (union first rest parts) List.Pairwise.nil hnot
  refine ⟨before, after, key, output, hsplit, hne, hbefore, hlast, ?_⟩
  rw [compileIndex_eq_addAll hrow hparts, herror]
  rfl

/-- A union that was compiled has its keys in order. -/
theorem increasing_of_compileIndex (hrow : Rowed first rest)
    (hparts : List.Forall₂ Transducer.Built ((first :: rest).flatMap (·.subIndexes)) parts)
    {b : SubBlock} (hb : compileIndex (first :: rest) = .ok b) :
    (union first rest parts).Increasing := by
  by_contra hnot
  obtain ⟨before, after, key, output, -, -, -, -, herror⟩ :=
    compileIndex_of_not_increasing hrow hparts hnot
  rw [herror] at hb
  cases hb

/-- The outputs of a union have lengths of 32 bits. -/
theorem length_union_lt
    (hparts : List.Forall₂ Transducer.Built ((first :: rest).flatMap (·.subIndexes)) parts)
    (hshort : (location first rest).encode.length < 2 ^ 32) :
    ∀ p ∈ union first rest parts, p.2.length < 2 ^ 32 := by
  intro p hp
  rcases List.mem_cons.mp hp with rfl | hp
  · exact hshort
  · obtain ⟨part, hpart, hmem⟩ := List.mem_flatten.mp hp
    obtain ⟨t, -, hbuilt⟩ := hparts.exists_left hpart
    exact hbuilt.output_lt p hmem

/-- **The index of a run is the union** of its own pair and of what the indexes of its sub-blocks
map, and there is one just if the keys of these are in order. Otherwise the first key that does not
come after the one before it is refused. -/
theorem compileIndex_unites (hrow : Rowed first rest) (hnear : ∀ b ∈ first :: rest, b.fp < 2 ^ 62)
    (hparts : List.Forall₂ Transducer.Built ((first :: rest).flatMap (·.subIndexes)) parts) :
    ((∃ b, compileIndex (first :: rest) = .ok b) ↔ (union first rest parts).Increasing) ∧
    (∀ b, compileIndex (first :: rest) = .ok b → Heads first b ∧
      ((location first rest).encode.length < 2 ^ 32 → b.index.nodes.length ≤ 2 ^ 64 →
        Location.decode (location first rest).encode = .ok (location first rest) ∧
          b.index.Maps (union first rest parts))) ∧
    (¬ (union first rest parts).Increasing →
      ∃ (before after : Pairs) (key output : Bytes),
        union first rest parts = before ++ (key, output) :: after ∧ before ≠ [] ∧
          before.Increasing ∧ ¬ lastKey before < key ∧
          compileIndex (first :: rest)
            = .error (.transducer (.keyOutOfOrder key (lastKey before)))) := by
  refine ⟨⟨fun ⟨b, hb⟩ => increasing_of_compileIndex hrow hparts hb,
    fun h => ⟨_, compileIndex_of_increasing hrow hparts h⟩⟩, fun b hb => ?_,
    compileIndex_of_not_increasing hrow hparts⟩
  have hincreasing := increasing_of_compileIndex hrow hparts hb
  rw [compileIndex_of_increasing hrow hparts hincreasing] at hb
  obtain rfl := Except.ok.inj hb
  refine ⟨⟨rfl, rfl, rfl, rfl, rfl⟩, fun hshort hroom => ⟨hrow.decode_location hnear hshort, ?_⟩⟩
  -- in order, all pairs are accepted, so the transducer is the map of them all
  have hdenotes := Transducer.Builder.denotes_attempts (length_union_lt hparts hshort) hroom
  rw [Transducer.accepted_of_increasing hincreasing] at hdenotes
  exact hdenotes.maps hincreasing

/-- Calls for a transducer below the first block of a run; the last is refused. -/
def lowerCalls : Pairs := [([97, 98], [1]), ([97, 98, 5], [1, 2]), ([97], [9])]

/-- Two blocks of a run with sub-blocks in both. -/
def unitedSample : WrittenBlock × List WrittenBlock :=
  (⟨[97], 50, true, true, none, [(attempts {} lowerCalls).finish]⟩,
    [⟨[97, 109], 80, false, true, some 109, [(attempts {} [([97, 110], [3])]).finish]⟩])

theorem compileIndex_unites_sample :
    Rowed unitedSample.1 unitedSample.2 ∧
      (∃ b, compileIndex (unitedSample.1 :: unitedSample.2) = .ok b ∧ Heads unitedSample.1 b ∧
        b.index.Maps [([97], (location unitedSample.1 unitedSample.2).encode), ([97, 98], [1]),
          ([97, 98, 5], [1, 2]), ([97, 110], [3])]) := by
  have hrow : Rowed unitedSample.1 unitedSample.2 := by
    refine ⟨fun _ => rfl, by decide, fun b hb => ?_⟩
    obtain rfl := List.mem_singleton.mp hb
    exact ⟨109, rfl⟩
  have hparts : List.Forall₂ Transducer.Built
      ((unitedSample.1 :: unitedSample.2).flatMap (·.subIndexes))
      [[([97, 98], [1]), ([97, 98, 5], [1, 2])], [([97, 110], [3])]] :=
    .cons ⟨⟨lowerCalls, rfl, by decide, by decide⟩, by decide +kernel⟩
      (.cons ⟨⟨[([97, 110], [3])], rfl, by decide, by decide⟩, by decide +kernel⟩ .nil)
  have hincreasing : (union unitedSample.1 unitedSample.2
      [[([97, 98], [1]), ([97, 98, 5], [1, 2])], [([97, 110], [3])]]).Increasing := by
    unfold Pairs.Increasing
    decide
  obtain ⟨htaken, hmaps, -⟩ := compileIndex_unites hrow (by decide) hparts
  obtain ⟨b, hb⟩ := htaken.mpr hincreasing
  obtain ⟨hheads, hindex⟩ := hmaps b hb
  have hroom : b.index.nodes.length ≤ 2 ^ 64 := by
    rw [compileIndex_of_increasing hrow hparts hincreasing] at hb
    obtain rfl := Except.ok.inj hb
    decide +kernel
  exact ⟨hrow, b, hb, hheads, (hindex (by decide +kernel) hroom).2⟩

end WrittenBlock

end Lexicon

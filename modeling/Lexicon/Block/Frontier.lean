import Lexicon.Block.Writer

/-!
# The frontier

Terms come in order, and what is not yet in a block waits in a row of pending entries. For every
prefix of the last term the frontier knows where in the row the entries with that prefix start. A
term that leaves prefixes of the last one behind completes their runs: the longest first, each run
of at least the least block size is written as blocks and stands in the row as one entry from then
on.

Blocks are written into an `Emission`, which holds the items in order and knows where the next block
will start.
-/

namespace Lexicon

/-- Blocks on their way to the stream of blocks. -/
structure Emission where
  /-- Where the next block starts. -/
  position : Nat
  codec : LongsCodec
  /-- The items of the blocks, in order. -/
  items : List Item := []

/-- A computation that writes blocks. -/
abbrev Emit := EStateM Error Emission

/-- Entries that are not yet in a block. -/
structure Frontier where
  pending : Array Entry := #[]
  /-- For each prefix of the last term, from one byte on, where the entries with it start. What
  comes after was of longer terms before, and means nothing any more. -/
  starts : List Nat := []
  /-- The last term. -/
  last : Bytes := []

namespace Frontier

/-- Writes one block of a run. -/
def emitBlock (hasFreqs : Bool) (stem : Bytes) (plan : BlockPlan) (entries : List Entry)
    (isLast : Bool) : Emit WrittenBlock := fun out =>
  match encodeBlock out.codec hasFreqs stem plan out.position entries isLast with
  | .error e => .error e out
  | .ok (items, written, codec) =>
    .ok written ⟨out.position + (Item.encodeAll items).length, codec, out.items ++ items⟩

/-- Writes the planned blocks of a run. -/
def emitRun (hasFreqs : Bool) (stem : Bytes) :
    List BlockPlan → List Entry → Emit (List WrittenBlock)
  | [], entries => if entries.isEmpty then pure [] else throw (.misuse .entriesLeft)
  | plan :: plans, entries => do
    let written ← emitBlock hasFreqs stem plan (entries.take plan.size) plans.isEmpty
    return written :: (← emitRun hasFreqs stem plans (entries.drop plan.size))

/-- Replaces the entries from `start` on, which share the first `depth` bytes of the last term, by
the one entry of their run. -/
def closeRun (f : Frontier) (sizes : BlockSizes) (hasFreqs : Bool) (depth start : Nat) :
    Emit Frontier := do
  if depth = 0 ∧ start ≠ 0 then throw (.misuse .rootNotWhole)
  if f.pending.size ≤ start then throw (.misuse .runWithoutEntries)
  if f.last.length < depth then throw (.misuse .stemOutsideTerm)
  -- all of these entries begin as the last term does, also where it is not among them itself
  let entries := (f.pending.extract start f.pending.size).toList
  let written ← emitRun hasFreqs (f.last.take depth) (planBlocks depth sizes entries) entries
  match compileIndex written with
  | .ok block => return { f with pending := (f.pending.take start).push (.block block) }
  | .error e => throw e

/-- Completes the runs of the prefixes of the last term with more than `kept` bytes, of which there
are `count`. -/
def closeRuns (sizes : BlockSizes) (hasFreqs : Bool) (kept : Nat) :
    Nat → Frontier → Emit Frontier
  | 0, f => pure f
  | count + 1, f => do
    match f.starts[kept + count]? with
    | some start =>
      if start ≤ f.pending.size then
        let f ← if sizes.min ≤ f.pending.size - start then
            f.closeRun sizes hasFreqs (kept + count + 1) start
          else pure f
        closeRuns sizes hasFreqs kept count f
      else throw (.misuse .positionOutsideStack)
    | none => throw (.misuse .positionOutsideStack)

/-- Starts the prefixes of the next term, of which so many bytes are those of the last one. -/
def turn (f : Frontier) (kept : Nat) (term : Bytes) : Frontier :=
  let fresh := List.replicate (term.length - kept) f.pending.size
  let stale := f.starts.drop term.length
  { f with starts := f.starts.take kept ++ fresh ++ stale, last := term }

/-- Goes on to the next term: completes the runs that it does not continue, and starts those of its
own prefixes. -/
def advance (f : Frontier) (sizes : BlockSizes) (hasFreqs : Bool) (term : Bytes) :
    Emit Frontier := do
  let kept := f.last.agreement term
  let f ← closeRuns sizes hasFreqs kept (f.last.length - kept) f
  return f.turn kept term

/-- Takes the next term. -/
def push (f : Frontier) (sizes : BlockSizes) (hasFreqs : Bool) (term : Bytes) (state : TermState) :
    Emit Frontier := do
  let f ← f.advance sizes hasFreqs term
  return { f with pending := f.pending.push (.term term state) }

/-- Writes all that is pending, and gives the run of all terms. -/
def close (f : Frontier) (sizes : BlockSizes) (hasFreqs : Bool) : Emit SubBlock := do
  -- the empty term leaves every prefix behind; the root is written however few entries it has
  let f ← f.advance sizes hasFreqs []
  let f ← f.closeRun sizes hasFreqs 0 0
  match f.pending.toList with
  | [.block root] => if root.stem.isEmpty then return root else throw (.misuse .rootWithStem)
  | _ => throw (.misuse .rootNotAlone)

end Frontier

end Lexicon

import Lexicon.Cursor
import Lexicon.Stream.Item

/-!
# Where the blocks of a run are

The index maps the prefix of a run to a `Location`: where its first block starts and, if the run has
more blocks, the byte that each of them begins with and where it starts. `Location.select` chooses
the one block of the run in which a term can be.
-/

namespace Lexicon

/-- A block of a run that is not its first. -/
structure Sibling where
  /-- The byte after the prefix of its first entry. -/
  lead : UInt8
  fp : Nat
  hasTerms : Bool
  deriving DecidableEq, Repr

/-- Where the blocks of a run are. -/
structure Location where
  /-- Where the first block starts. -/
  fp : Nat
  /-- Whether the first block holds terms. -/
  hasTerms : Bool
  isFloor : Bool
  /-- The blocks after the first. -/
  siblings : List Sibling := []
  deriving DecidableEq, Repr

namespace Location

/-- The first block and the two flags in one word. -/
def code (fp : Nat) (hasTerms isFloor : Bool) : UInt64 :=
  UInt64.ofNat (4 * fp + 2 * hasTerms.toNat + isFloor.toNat)

/-- The items of a sibling of a block at `base`. -/
def siblingItems (base : Nat) (s : Sibling) : List Item :=
  [.byte s.lead, .nat64 (2 * (s.fp - base) + s.hasTerms.toNat)]

def items (l : Location) : List Item :=
  .vlong (code l.fp l.hasTerms l.isFloor)
    :: (if l.isFloor then
        .nat32 l.siblings.length :: l.siblings.flatMap (siblingItems l.fp)
      else [])

/-- The bytes that the index stores. -/
def encode (l : Location) : Bytes := Item.encodeAll l.items

/-- Reads `count` siblings of a block at `base`. -/
def readSiblings (base : Nat) : Nat → Read (List Sibling)
  | 0 => pure []
  | count + 1 => do
    let lead ← Read.byte
    let code ← Read.vlong
    let sibling : Sibling := ⟨lead, base + code / 2, code % 2 = 1⟩
    return sibling :: (← readSiblings base count)

def read : Read Location := do
  let code ← Read.vlong
  let fp := code / 4
  let isFloor : Bool := code % 2 = 1
  let siblings ←
    if isFloor then
      let count ← Read.vint
      -- a sibling takes at least one byte
      if (← Read.remaining) < count then Read.corrupt (.tooManySiblings count)
      readSiblings fp count
    else pure []
  unless ← Read.atEnd do Read.corrupt .trailingOutput
  return { fp, hasTerms := code / 2 % 2 = 1, isFloor, siblings }

/-- The location that stored bytes stand for. -/
def decode (bs : Bytes) : Except Error Location := (read.run bs).map (·.1)

/-- The last of some siblings whose first byte is not above a label, or else the given block. -/
def selectFrom (block : Nat × Bool) (label : UInt8) : List Sibling → Nat × Bool
  | [] => block
  | s :: rest => if label < s.lead then block else selectFrom (s.fp, s.hasTerms) label rest

/-- The block to look in for a term whose byte after the prefix is the label, and whether it
holds terms. A term that is the prefix is in the first. -/
def select (l : Location) : Option UInt8 → Nat × Bool
  | none => (l.fp, l.hasTerms)
  | some label => selectFrom (l.fp, l.hasTerms) label l.siblings

end Location

end Lexicon

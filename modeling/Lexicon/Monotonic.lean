import Lexicon.Number.Binary32
import Lexicon.Cursor
import Lexicon.Packed
import Lexicon.Stream.Item

/-!
# Monotonic arrays

A row of numbers none of which is below the one before it, in blocks of 2^shift. A block is a
straight line and what its numbers differ from the line by: the least difference, the slope as a
single-precision number, the width of the differences above the least, and these, packed. The number
of values is not stored. Differences are taken modulo 2^64.
-/

namespace Lexicon.Monotonic

/-- The signed number with the same 64 bits. -/
def signed (n : Int) : Int := n.bmod (2 ^ 64)

/-- The unsigned number with the same 64 bits. -/
def unsigned (i : Int) : Nat := (i % 2 ^ 64).toNat

/-- What the line of a block gives at an index. -/
def expected (slope : UInt32) (index : Nat) : Int := Binary32.timesIndex slope index

def validShift (shift : Nat) : Bool := 2 ≤ shift && shift ≤ 22

/-- A row that is being written. -/
structure Builder where
  shift : Nat
  /-- The values of the last block, the latest first. -/
  block : List Nat := []
  previous : Option Nat := none
  count : Nat := 0
  /-- The finished blocks. -/
  done : Bytes := []

namespace Builder

/-- An empty row. -/
def new (shift : Nat) : Except Error Builder :=
  if validShift shift then .ok { shift } else .error (.invalidConfig (.shiftOutOfRange shift))

end Builder

/-- The slope of the line of a block. -/
def blockSlope (values : List Nat) : UInt32 :=
  Binary32.slope ((values.getLast?.getD 0) - (values.head?.getD 0)) (max values.length 2 - 1)

/-- What the values of a block, from the given index on, differ from a line by. -/
def differences (slope : UInt32) : Nat → List Nat → List Int
  | _, [] => []
  | index, v :: rest =>
    signed (signed v - expected slope index) :: differences slope (index + 1) rest

/-- The least of a row of numbers. -/
def least : List Int → Int
  | [] => 0
  | i :: rest => rest.foldl min i

/-- The bytes of one block of values. -/
def encodeBlock (values : List Nat) : Bytes :=
  let slope := blockSlope values
  let differences := differences slope 0 values
  let min := least differences
  let above := differences.map fun d => unsigned (d - min)
  -- the bits that any of the numbers has; if none has any, nothing is packed
  let all := above.foldl (· ||| ·) 0
  let head := [Item.nat64 (Zigzag.encode min), .u32 slope]
  if all = 0 then Item.encodeAll (head ++ [.byte 0])
  else
    let width := Packed.bitsRequired all
    Item.encodeAll (head ++ [.byte (UInt8.ofNat width)]) ++ Packed.encode (above.map (·, width))

namespace Builder

/-- Ends the last block. -/
def endBlock (b : Builder) : Builder :=
  { b with block := [], done := b.done ++ encodeBlock b.block.reverse }

/-- Takes the next value; one below its predecessor is refused. -/
def add (b : Builder) (value : Nat) : Except Error Builder :=
  match b.previous.filter (value < ·) with
  | some previous => .error (.notMonotonic value previous)
  | none =>
    -- a full block waits for the next value, so that the row never ends in an empty one
    let b := if b.block.length = 2 ^ b.shift then b.endBlock else b
    .ok { b with block := value :: b.block, previous := some value, count := b.count + 1 }

/-- The bytes of the row. -/
def finish (b : Builder) : Bytes := if b.block.isEmpty then b.done else b.endBlock.done

end Builder

/-- A sum that has to be a signed number of 64 bits. -/
def checkedAdd (a b : Int) : Option Int :=
  if -2 ^ 63 ≤ a + b ∧ a + b < 2 ^ 63 then some (a + b) else none

/-- The value at an index of a block. -/
def restore (min above : Int) (slope : UInt32) (index : Nat) : Except Error Nat :=
  match (checkedAdd min above).bind (checkedAdd · (expected slope index)) with
  | some i => .ok (unsigned i)
  | none => .error (.corrupt (.monotonicOverflow index))

/-- The values of a block from an index on. -/
def restoreAll (min : Int) (slope : UInt32) : Nat → List Nat → Except Error (List Nat)
  | _, [] => .ok []
  | index, above :: rest => do
    let value ← restore min (signed above) slope index
    return value :: (← restoreAll min slope (index + 1) rest)

/-- Takes `count` numbers of one width off a row of bits. -/
def takeAll (width : Nat) : Nat → EStateM Error (List Bool) (List Nat)
  | 0 => pure []
  | count + 1 => do
    let n ← Packed.take width
    return n :: (← takeAll width count)

/-- The values of one block of `count`. -/
def readBlock (count : Nat) : Read (List Nat) := do
  let min := Zigzag.decode (← Read.vlong)
  let slope := UInt32.ofNat (← Read.word 4)
  let width := (← Read.byte).toNat
  if 64 < width then Read.corrupt (.badWidth width)
  let above ←
    if width = 0 then pure (List.replicate count 0)
    else
      match takeAll width count (Packed.unpack (← Read.bytes (Packed.length count width))) with
      | .ok above _ => pure above
      | .error e _ => throw e
  match restoreAll min slope 0 above with
  | .ok values => return values
  | .error e => throw e

/-- `count` values in blocks of `size + 1`. -/
def readBlocks (size count : Nat) : Read (List Nat) :=
  if _h : count = 0 then pure []
  else do
    let n := min (size + 1) count
    let values ← readBlock n
    return values ++ (← readBlocks size (count - n))
termination_by count
decreasing_by omega

/-- `count` values that were written in blocks of 2^shift. -/
def read (count shift : Nat) : Read (List Nat) :=
  if validShift shift then readBlocks (2 ^ shift - 1) count
  else Read.corrupt (.badShift shift)

end Lexicon.Monotonic

import Lexicon.Bytes

/-!
# LZ4 blocks

A block is a row of sequences: literal bytes, then a copy of earlier bytes named by an offset and a
length. `Lz4.decompress` reads a block into a buffer of a given capacity. `Lz4.compress` finds
copies with a table of positions, indexed by a hash of four bytes; the search strides further the
longer it finds nothing. The last five bytes of an input are always literals, and no copy begins in
its last twelve.
-/

namespace Lexicon.Lz4

/-! ## Reading a block -/

/-- Why bytes are no block of the given capacity. -/
inductive Fault where
  | expectedByte
  | literalOutOfBounds
  | outputTooSmall (expected actual : Nat)
  | zeroOffset
  | offsetOutOfBounds
  deriving DecidableEq, Repr

def Fault.message : Fault → String
  | .expectedByte => "expected another byte, found none"
  | .literalOutOfBounds => "literal is out of bounds of the input"
  | .outputTooSmall expected actual =>
    s!"provided output is too small for the decompressed data, actual {actual}, expected {expected}"
  | .zeroOffset => "0 is not a valid match offset"
  | .offsetOutOfBounds => "the offset to copy is not contained in the decompressed buffer"

/-- The bytes that lengthen a count of fifteen: every full byte is followed by another. -/
def extended (count : Nat) : Bytes → Option (Nat × Bytes)
  | [] => none
  | b :: rest => if b = 255 then extended (count + 255) rest else some (count + b.toNat, rest)

/-- A count that begins with four bits of a token. -/
def count (nibble : Nat) (bs : Bytes) : Option (Nat × Bytes) :=
  if nibble = 15 then extended 15 bs else some (nibble, bs)

/-- Appends `n` bytes, each one copied from `offset` places before the end. -/
def copyBack (out : Array UInt8) (offset : Nat) : Nat → Array UInt8
  | 0 => out
  | n + 1 => copyBack (out.push (out.getD (out.size - offset) 0)) offset n

/-- One sequence, whose literals start after its token: the buffer after it, and the bytes of the
next sequence unless the block ends with the literals. -/
def sequence (capacity : Nat) (out : Array UInt8) (token : UInt8) (bs : Bytes) :
    Except Fault (Array UInt8 × Option Bytes) := do
  let (literals, bs) ← (count (token.toNat / 16) bs).elim (.error .expectedByte) .ok
  let front := bs.take literals
  if front.length < literals then throw .literalOutOfBounds
  if capacity < out.size + literals then throw (.outputTooSmall (out.size + literals) capacity)
  let out := out ++ front.toArray
  match bs.drop literals with
  | [] => return (out, none)
  | low :: high :: bs =>
    let offset := low.toNat + 256 * high.toNat
    if offset = 0 then throw .zeroOffset
    let (length, bs) ← (count (token.toNat % 16) bs).elim (.error .expectedByte) .ok
    let length := length + 4
    if capacity < out.size + length then throw (.outputTooSmall (out.size + length) capacity)
    if out.size < offset then throw .offsetOutOfBounds
    return (copyBack out offset length, some bs)
  | [_] => throw .expectedByte

/-- The sequences of a block, of which there are at most `fuel`: each takes at least its token. -/
def sequences (capacity : Nat) : Nat → Array UInt8 → Bytes → Except Fault (Array UInt8)
  | _, _, [] => .error .expectedByte
  | 0, _, _ => .error .expectedByte
  | fuel + 1, out, token :: bs => do
    match ← sequence capacity out token bs with
    | (out, none) => return out
    | (out, some bs) => sequences capacity fuel out bs

/-- The bytes of a block, of which there may be at most `capacity`. -/
def decompress (block : Bytes) (capacity : Nat) : Except Fault Bytes :=
  (sequences capacity (block.length + 1) #[] block).map Array.toList

/-! ## Writing a block -/

/-- The bytes after a token that lengthen a count of fifteen by `extra`. -/
def extension (extra : Nat) : Bytes :=
  List.replicate (extra / 255) 255 ++ [UInt8.ofNat (extra % 255)]

/-- The four bits of a count in the token. -/
def nibble (count : Nat) : Nat := min count 15

/-- What a count adds after the token. -/
def overflow (count : Nat) : Bytes := if count < 15 then [] else extension (count - 15)

/-- The literals that end a block. -/
def lastLiterals (literals : Array UInt8) : Array UInt8 :=
  #[UInt8.ofNat (nibble literals.size * 16)] ++ (overflow literals.size).toArray ++ literals

/-- One sequence: literals, then a copy of `extra + 4` bytes from `offset` places back. -/
def copySequence (literals : Array UInt8) (offset extra : Nat) : Array UInt8 :=
  #[UInt8.ofNat (nibble literals.size * 16 + nibble extra)] ++ (overflow literals.size).toArray
    ++ literals ++ #[UInt8.ofNat offset, UInt8.ofNat (offset / 256)] ++ (overflow extra).toArray

/-- The four bytes at a position, as a little-endian word. -/
def word (input : Array UInt8) (p : Nat) : UInt32 :=
  (input.getD p 0).toUInt32 ||| ((input.getD (p + 1) 0).toUInt32 <<< 8)
    ||| ((input.getD (p + 2) 0).toUInt32 <<< 16) ||| ((input.getD (p + 3) 0).toUInt32 <<< 24)

/-- The place of a position in the table. -/
def slot (input : Array UInt8) (p : Nat) : Nat := (((word input p) * 2654435761) >>> 20).toNat

/-- Number of equal bytes just before two positions, the later one staying above `floor`. -/
def equalBefore (input : Array UInt8) (floor : Nat) : Nat → Nat → Nat
  | cur + 1, cand + 1 =>
    if floor < cur + 1 ∧ input.getD cur 0 = input.getD cand 0 then
      equalBefore input floor cur cand + 1
    else 0
  | _, _ => 0

/-- Number of equal bytes from two positions on, over at most `limit` bytes. -/
def equalAfter (input : Array UInt8) : Nat → Nat → Nat → Nat
  | 0, _, _ => 0
  | limit + 1, cur, cand =>
    if input.getD cur 0 = input.getD cand 0 then equalAfter input limit (cur + 1) (cand + 1) + 1
    else 0

/-- Largest distance of a copy, which has two bytes. -/
def maxDistance : Nat := 65535

/-- The search for a copy from `next` on: the table after it, and the two positions if there is a
copy. The stride grows by one with every 32 misses. -/
def search (input : Array UInt8) :
    Nat → Array Nat → Nat → Nat → Array Nat × Option (Nat × Nat)
  | 0, table, _, _ => (table, none)
  | fuel + 1, table, misses, cur =>
    if input.size < cur + 12 then (table, none)
    else
      let place := slot input cur
      -- a place that was never set names position 0, which the comparison of words confirms or not
      let cand := table.getD place 0
      let table := table.setIfInBounds place cur
      if cur - cand ≤ maxDistance ∧ word input cand = word input cur then
        (table, some (cur, cand))
      else search input fuel table (misses + 1) (cur + misses / 32)

/-- The sequences of a block from `cur` on, the bytes from `literals` on being unwritten. -/
def blocks (input : Array UInt8) :
    Nat → Array UInt8 → Array Nat → Nat → Nat → Array UInt8
  | 0, out, _, literals, _ => out ++ lastLiterals (input.extract literals input.size)
  | fuel + 1, out, table, literals, cur =>
    match search input input.size table 32 cur with
    | (_, none) => out ++ lastLiterals (input.extract literals input.size)
    | (table, some (cur, cand)) =>
      let back := equalBefore input literals cur cand
      let start := cur - back
      -- the copy ends before the last six bytes
      let extra := equalAfter input (input.size - 6 - (cur + 4)) (cur + 4) (cand + 4) + back
      let stop := start + 4 + extra
      let table := table.setIfInBounds (slot input (stop - 2)) (stop - 2)
      blocks input fuel
        (out ++ copySequence (input.extract literals start) (cur - cand) extra) table stop stop

/-- A block that restores to the input. Inputs of fewer than 13 bytes are all literals. -/
def compress (bs : Bytes) : Bytes :=
  let input := bs.toArray
  if input.size < 13 then (lastLiterals input).toList
  else (blocks input input.size #[] (Array.replicate 4096 0) 0 1).toList

end Lexicon.Lz4

import Lexicon.Cursor
import Lexicon.Packed
import Lexicon.Stream.Item

/-!
# Packing lower-case text

Lower-case letters, digits and common marks lie in two ranges of 32 bytes, so that six bits tell
them apart. A packed text is the six bits of every byte, then the number of exceptions and for each
of them how far it is from the one before, and the byte itself. Texts that are short, have an
exception in more than one of 32 bytes or would not get shorter are not packed.
-/

namespace Lexicon.Lowercase

/-- Whether six bits can stand for a byte. -/
def packable (b : UInt8) : Bool :=
  let row := (b.toNat + 1) / 32
  row = 1 || row = 3

/-- The six bits of a byte. -/
def code (b : UInt8) : Nat :=
  let v := b.toNat + 1
  v % 32 + 32 * (v / 64 % 2)

/-- The byte that six bits stand for. -/
def ofCode (c : Nat) : UInt8 := UInt8.ofNat (c % 32 + 32 + 64 * (c / 32 % 2) - 1)

/-- The bytes that six bits cannot stand for, with their places, from the given place on. -/
def exceptions (place : Nat) : Bytes → List (Nat × UInt8)
  | [] => []
  | b :: rest =>
    if packable b then exceptions (place + 1) rest else (place, b) :: exceptions (place + 1) rest

/-- The items of the exceptions after one at the given place. -/
def exceptionItems (previous : Nat) : List (Nat × UInt8) → List Item
  | [] => []
  | (place, b) :: rest => .nat32 (place - previous) :: .byte b :: exceptionItems place rest

/-- The packed text, whether or not it is short. -/
def pack (input : Bytes) : Bytes :=
  let exceptions := exceptions 0 input
  Packed.encode (input.map fun b => (code b, 6))
    ++ Item.encodeAll (.nat32 exceptions.length :: exceptionItems 0 exceptions)

/-- The packed text, if packing pays. -/
def compress (input : Bytes) : Option Bytes :=
  if input.length < 8 ∨ input.length / 32 < (exceptions 0 input).length then none
  else
    let packed := pack input
    if packed.length < input.length then some packed else none

/-- Puts `count` exceptions in their places, the first counted from the given place. -/
def restore (out : Array UInt8) (place : Nat) : Nat → Read (Array UInt8)
  | 0 => pure out
  | count + 1 => do
    let place := place + (← Read.vint)
    let b ← Read.byte
    if h : place < out.size then restore (out.set place b) place count
    else Read.corrupt (.exceptionBeyond place out.size)

/-- The `length` bytes that a row of bits stands for, six for each. -/
def ofBits (length : Nat) (bits : List Bool) : List UInt8 :=
  match length with
  | 0 => []
  | length + 1 => ofCode (Packed.ofBits (bits.take 6)) :: ofBits length (bits.drop 6)

/-- Reads a packed text of the given length. -/
def unpack (length : Nat) : Read Bytes := do
  let packed ← Read.bytes (Packed.length length 6)
  let out := (ofBits length (Packed.unpack packed)).toArray
  let out ← restore out 0 (← Read.vint)
  return out.toList

/-- The text of the given length at the front of packed bytes. -/
def decompress (packed : Bytes) (length : Nat) : Except Error Bytes :=
  ((unpack length).run packed).map (·.1)

end Lexicon.Lowercase

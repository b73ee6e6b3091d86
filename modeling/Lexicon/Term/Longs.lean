import Lexicon.Cursor
import Lexicon.Stream.Item

/-!
# The numbers of a term

The numbers of a term are stored after their count, each as it is or as the difference from the
number at the same place in the term before. The codec is what both sides remember of the term
before. An absolute term is stored as if there were none before it, so that whatever follows can be
read from there. Differences are taken modulo 2^64 and kept small in both directions.
-/

namespace Lexicon

/-- The signed number with the bits of a word. -/
def signedWord (w : UInt64) : Int := (w.toNat : Int).bmod (2 ^ 64)

/-- The numbers of the term before. -/
structure LongsCodec where
  last : List UInt64 := []
  deriving DecidableEq, Repr, Inhabited

namespace LongsCodec

/-- The codec before a term. -/
def before (c : LongsCodec) (absolute : Bool) : LongsCodec := if absolute then {} else c

/-- One number, beside the one at its place in the term before. -/
def encodeLong (previous : Option UInt64) (value : UInt64) : UInt64 :=
  match previous with
  | none => value
  | some p => UInt64.ofNat (Zigzag.encode (signedWord (value - p)))

/-- What `encodeLong` stored. -/
def decodeLong (previous : Option UInt64) (raw : UInt64) : UInt64 :=
  match previous with
  | none => raw
  | some p => p + UInt64.ofInt (Zigzag.decode raw.toNat)

/-- The items of numbers, beside those of the term before. -/
def longItems : List UInt64 → List UInt64 → List Item
  | _, [] => []
  | previous, value :: rest =>
    .vlong (encodeLong previous.head? value) :: longItems previous.tail rest

/-- The items of a term's numbers, and the codec after it. -/
def encode (c : LongsCodec) (absolute : Bool) (longs : List UInt64) : List Item × LongsCodec :=
  (.nat32 longs.length :: longItems (c.before absolute).last longs, ⟨longs⟩)

/-- Reads `count` numbers, beside those of the term before. -/
def readLongs : List UInt64 → Nat → Read (List UInt64)
  | _, 0 => pure []
  | previous, count + 1 => do
    let value := decodeLong previous.head? (UInt64.ofNat (← Read.vlong))
    return value :: (← readLongs previous.tail count)

/-- Reads the numbers of a term. -/
def read (c : LongsCodec) (absolute : Bool) : Read (List UInt64) := do
  let count ← Read.vint
  -- a number takes at least one byte
  if (← Read.remaining) < count then Read.corrupt (.tooManyLongs count)
  readLongs (c.before absolute).last count

/-- Reads the numbers of a term and remembers them. A read that fails leaves the codec as it was
before the term. -/
def decode (c : LongsCodec) (absolute : Bool) (input : Cursor) :
    Except Error (List UInt64) × LongsCodec × Cursor :=
  match c.read absolute input with
  | .ok longs input => (.ok longs, ⟨longs⟩, input)
  | .error e input => (.error e, c.before absolute, input)

end LongsCodec

end Lexicon

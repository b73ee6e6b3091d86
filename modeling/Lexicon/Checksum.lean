import Lexicon.Bytes

/-!
# The stream checksum

The 64-bit hash XXH64 with seed zero, as a digest that takes one byte after the other. Whole
stripes of 32 bytes go into four lanes; what is left over is mixed in when the digest is read. A
digest also counts the bytes that it has taken.
-/

namespace Lexicon

namespace XXH64

def prime1 : UInt64 := 0x9E3779B185EBCA87
def prime2 : UInt64 := 0xC2B2AE3D27D4EB4F
def prime3 : UInt64 := 0x165667B19E3779F9
def prime4 : UInt64 := 0x85EBCA77C2B2AE63
def prime5 : UInt64 := 0x27D4EB2F165667C5

def rotateLeft (x : UInt64) (n : UInt64) : UInt64 := (x <<< n) ||| (x >>> (64 - n))

/-- One word into one lane. -/
def round (lane word : UInt64) : UInt64 := rotateLeft (lane + word * prime2) 31 * prime1

/-- One lane into the result. -/
def merge (h lane : UInt64) : UInt64 := (h ^^^ round 0 lane) * prime1 + prime4

/-- The little-endian word that a few bytes spell. -/
def word (bs : Bytes) : UInt64 := UInt64.ofNat (Bytes.ofLittleEndian bs)

/-- The bytes after the last whole stripe, by eights, then a four, then ones. -/
def finishTail (h : UInt64) : Bytes → UInt64
  | a :: b :: c :: d :: e :: f :: g :: i :: rest =>
    finishTail (rotateLeft (h ^^^ round 0 (word [a, b, c, d, e, f, g, i])) 27 * prime1 + prime4)
      rest
  | a :: b :: c :: d :: rest =>
    finishTail (rotateLeft (h ^^^ (word [a, b, c, d] * prime1)) 23 * prime2 + prime3) rest
  | b :: rest => finishTail (rotateLeft (h ^^^ (b.toUInt64 * prime5)) 11 * prime1) rest
  | [] => h

def avalanche (h : UInt64) : UInt64 :=
  let h := (h ^^^ (h >>> 33)) * prime2
  let h := (h ^^^ (h >>> 29)) * prime3
  h ^^^ (h >>> 32)

end XXH64

open XXH64

/-- The state of the hash between two bytes. -/
structure Digest where
  lanes : UInt64 × UInt64 × UInt64 × UInt64 := (prime1 + prime2, prime2, 0, 0 - prime1)
  /-- Bytes after the last whole stripe, the latest first. -/
  pending : Bytes := []
  /-- Number of bytes in `pending`. -/
  fill : Nat := 0
  /-- Number of bytes taken. -/
  length : Nat := 0

namespace Digest

/-- A whole stripe into the lanes. -/
def stripe (lanes : UInt64 × UInt64 × UInt64 × UInt64) (bs : Bytes) :
    UInt64 × UInt64 × UInt64 × UInt64 :=
  let (a, b, c, d) := lanes
  (round a (word (bs.take 8)), round b (word ((bs.drop 8).take 8)),
    round c (word ((bs.drop 16).take 8)), round d (word (bs.drop 24)))

/-- Takes one byte. -/
def push (s : Digest) (b : UInt8) : Digest :=
  if s.fill = 31 then
    { lanes := stripe s.lanes (b :: s.pending).reverse, length := s.length + 1 }
  else { s with pending := b :: s.pending, fill := s.fill + 1, length := s.length + 1 }

/-- Takes bytes in order. -/
def update (s : Digest) (bs : Bytes) : Digest := bs.foldl push s

/-- The hash of the bytes taken so far. -/
def value (s : Digest) : UInt64 :=
  let start :=
    -- without a whole stripe the lanes have taken nothing
    if s.length < 32 then prime5
    else
      let (a, b, c, d) := s.lanes
      let h := rotateLeft a 1 + rotateLeft b 7 + rotateLeft c 12 + rotateLeft d 18
      merge (merge (merge (merge h a) b) c) d
  avalanche (finishTail (start + UInt64.ofNat s.length) s.pending.reverse)

theorem update_append (s : Digest) (a b : Bytes) : s.update (a ++ b) = (s.update a).update b :=
  List.foldl_append

theorem length_push (s : Digest) (b : UInt8) : (s.push b).length = s.length + 1 := by
  unfold push; split <;> rfl

/-- A digest counts what it takes. -/
theorem length_update (s : Digest) (bs : Bytes) : (s.update bs).length = s.length + bs.length := by
  induction bs generalizing s with
  | nil => rfl
  | cons b bs ih =>
    rw [show s.update (b :: bs) = (s.push b).update bs from rfl, ih, length_push, List.length_cons]
    omega

end Digest

/-- The hash of a byte string. -/
def checksum (bs : Bytes) : UInt64 := (({} : Digest).update bs).value

end Lexicon

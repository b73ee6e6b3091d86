import Lexicon.Error
import Lexicon.Varint

/-!
# Reading bytes

A `Cursor` moves forward over a byte string: it holds how far it is and what is left. A `Read` is a
computation on a cursor that gives a value or an error; in both cases the cursor has
moved past what was read, so a read that fails halfway has still consumed its first half.
-/

namespace Lexicon

/-- A place in a byte string. -/
structure Cursor where
  /-- Number of bytes before the place. -/
  position : Nat
  /-- The bytes after it. -/
  rest : Bytes
  deriving DecidableEq, Repr

/-- A computation that reads from a cursor. -/
abbrev Read := EStateM Error Cursor

namespace Cursor

/-- The start of a byte string. -/
def start (data : Bytes) : Cursor := ⟨0, data⟩

/-- A place in a byte string, which its end still is. -/
def at? (data : Bytes) (position : Nat) : Except Error Cursor :=
  if position ≤ data.length then .ok ⟨position, data.drop position⟩
  else .error (.corrupt (.positionBeyondEnd position data.length))

/-- Number of bytes left. -/
def remaining (c : Cursor) : Nat := c.rest.length

def atEnd (c : Cursor) : Bool := c.rest.isEmpty

/-- The error of a read that finds too few bytes. -/
def ended (c : Cursor) : Error := .corrupt (.unexpectedEnd c.position (c.position + c.rest.length))

/-- The place `n` bytes on. -/
def advance (c : Cursor) (n : Nat) : Cursor := ⟨c.position + n, c.rest.drop n⟩

end Cursor

namespace Read

/-- Number of bytes read so far. -/
def position : Read Nat := fun c => .ok c.position c

/-- Number of bytes left. -/
def remaining : Read Nat := fun c => .ok c.remaining c

def atEnd : Read Bool := fun c => .ok c.atEnd c

/-- Fails for the given reason. -/
def corrupt {α : Type} (cause : Corruption) : Read α := throw (.corrupt cause)

/-- One byte. -/
def byte : Read UInt8 := fun c =>
  match c.rest with
  | [] => .error c.ended c
  | b :: rest => .ok b ⟨c.position + 1, rest⟩

/-- The next `n` bytes. -/
def bytes (n : Nat) : Read Bytes := fun c =>
  let front := c.rest.take n
  if front.length = n then .ok front (c.advance n) else .error c.ended c

/-- A variable-length number of `width` bits, or else the given error about the place. -/
def varint (width : Nat) (malformed : Nat → Corruption) : Read Nat := fun c =>
  match Varint.decode width c.rest with
  | some (n, length) => .ok n (c.advance length)
  | none => .error (.corrupt (malformed c.position)) c

/-- A variable-length number of 32 bits. -/
def vint : Read Nat := varint 32 .malformedVint

/-- A variable-length number of 64 bits. -/
def vlong : Read Nat := varint 64 .malformedVlong

/-- A little-endian number of `width` bytes. -/
def word (width : Nat) : Read Nat := Bytes.ofLittleEndian <$> bytes width

/-- A byte string that follows its length. -/
def block : Read Bytes := do bytes (← vint)

end Read

/-- The value of a read from the start of a byte string, and the place it ends at. -/
def Read.run {α : Type} (r : Read α) (data : Bytes) : Except Error (α × Cursor) :=
  match EStateM.run r (.start data) with
  | .ok a c => .ok (a, c)
  | .error e _ => .error e

/-- The value of a read at a place of a byte string. -/
def Read.runAt {α : Type} (r : Read α) (data : Bytes) (position : Nat) : Except Error α := do
  match EStateM.run r (← Cursor.at? data position) with
  | .ok a _ => return a
  | .error e _ => throw e

end Lexicon

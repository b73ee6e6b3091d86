import Lexicon.Checksum
import Lexicon.Error
import Lexicon.Stream.Item

/-!
# Writing streams

A `Sink` takes bytes or fails. An `Output` is a named sink together with the digest of every byte
that the sink has taken, from which both the position in the stream and its running checksum are
read. Nothing is assumed of a sink: a write may fail now and succeed later, and either may change
it.
-/

namespace Lexicon

/-- Something that takes bytes. -/
class Sink (σ : Type) where
  /-- Takes all of some bytes, of which there is at least one, or fails. -/
  write : σ → Bytes → Except MediumFault Unit × σ
  /-- Makes what was taken lasting, or fails. -/
  flush : σ → Except MediumFault Unit × σ

/-- A sink that keeps what it takes. It can be told to fail, and to refuse to grow beyond a limit.
-/
structure Memory where
  data : Array UInt8 := #[]
  failing : Bool := false
  limit : Option Nat := none

namespace Memory

/-- The bytes taken so far. -/
def bytes (m : Memory) : Bytes := m.data.toList

/-- Whether the sink takes `n` more bytes. -/
def accepts (m : Memory) (n : Nat) : Bool :=
  !m.failing && m.limit.all (m.data.size + n ≤ ·)

instance : Sink Memory where
  write m bs :=
    if m.accepts bs.length then (.ok (), { m with data := m.data ++ bs }) else (.error .full, m)
  flush m := (if m.failing then .error .full else .ok (), m)

end Memory

/-- A named stream on its way into a sink. -/
structure Output (σ : Type) where
  name : String
  sink : σ
  /-- The digest of all bytes that the sink took. -/
  digest : Digest := {}

/-- A computation that writes to an output. -/
abbrev Write (σ : Type) := EStateM Error (Output σ)

namespace Output

variable {σ : Type}

/-- Number of bytes written. -/
def position (out : Output σ) : Nat := out.digest.length

variable [Sink σ]

/-- Writes bytes as one portion; no bytes are no write. -/
def portion (bs : Bytes) : Write σ Unit := fun out =>
  if bs.isEmpty then .ok () out
  else
    match Sink.write out.sink bs with
    | (.ok (), sink) => .ok () { out with sink, digest := out.digest.update bs }
    -- nothing of a failed portion counts, whatever the sink took of it
    | (.error fault, sink) => .error (.medium fault) { out with sink }

/-- Writes portions in order, up to the first that fails. -/
def portions : List Bytes → Write σ Unit
  | [] => pure ()
  | bs :: rest => do portion bs; portions rest

/-- Writes items in order, up to the first that fails. -/
def items (items : List Item) : Write σ Unit := portions (items.flatMap Item.pieces)

/-- Writes one item. -/
def item (item : Item) : Write σ Unit := items [item]

/-- Makes the stream lasting. -/
def flush : Write σ Unit := fun out =>
  match Sink.flush out.sink with
  | (.ok (), sink) => .ok () { out with sink }
  | (.error fault, sink) => .error (.medium fault) { out with sink }

end Output

end Lexicon

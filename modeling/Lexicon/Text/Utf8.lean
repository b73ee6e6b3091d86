import Lexicon.Bytes

/-!
# Text in UTF-8

`Utf8.decode` accepts exactly the byte strings that spell a text, and says of every other one where
it stops being one. `Utf8.lossy` reads any byte string, with U+FFFD for each longest part that
begins like a character and is none.

Both follow one machine that takes a byte at a time. Inside a character it holds the ranges that the
bytes still owed must lie in; only the first of them is ever narrower than `80`–`BF`, which keeps
out overlong forms, surrogates and numbers above U+10FFFF.
-/

namespace Lexicon.Text.Utf8

/-- Least and greatest value of an owed byte. -/
abbrev Range := Nat × Nat

/-- The range of a continuation byte with no further condition. -/
def tail : Range := (0x80, 0xBF)

/-- For the first byte of a character, the bits it gives and the ranges of the bytes it asks for. -/
def start (b : Nat) : Option (Nat × List Range) :=
  if b < 0x80 then some (b, [])
  else if 0xC2 ≤ b ∧ b ≤ 0xDF then some (b - 0xC0, [tail])
  else if b = 0xE0 then some (0, [(0xA0, 0xBF), tail])
  else if b = 0xED then some (b - 0xE0, [(0x80, 0x9F), tail])
  else if 0xE1 ≤ b ∧ b ≤ 0xEF then some (b - 0xE0, [tail, tail])
  else if b = 0xF0 then some (0, [(0x90, 0xBF), tail, tail])
  else if b = 0xF4 then some (b - 0xF0, [(0x80, 0x8F), tail, tail])
  else if 0xF1 ≤ b ∧ b ≤ 0xF3 then some (b - 0xF0, [tail, tail, tail])
  else none

/-- Between two bytes: the bytes still owed, the bits read of the character, and how many of its
bytes were read. Nothing is owed between two characters. -/
structure State where
  owed : List Range := []
  bits : Nat := 0
  read : Nat := 0

/-- What one byte settles, if anything. -/
inductive Event where
  | character (c : Char)
  /-- A part of that many bytes that is no character ends here. -/
  | broken (length : Nat)

/-- A byte where a character may begin. -/
def begin (b : UInt8) : State × List Event :=
  match start b.toNat with
  | none => (⟨[], 0, 0⟩, [.broken 1])
  | some (bits, []) => (⟨[], 0, 0⟩, [.character (Char.ofNat bits)])
  | some (bits, owed) => (⟨owed, bits, 1⟩, [])

/-- One byte. A byte outside the owed range ends the broken part before it and is read afresh. -/
def step (s : State) (b : UInt8) : State × List Event :=
  match s.owed with
  | [] => begin b
  | (low, high) :: owed =>
    if low ≤ b.toNat ∧ b.toNat ≤ high then
      let bits := s.bits * 64 + (b.toNat - 0x80)
      match owed with
      | [] => (⟨[], 0, 0⟩, [.character (Char.ofNat bits)])
      | owed => (⟨owed, bits, s.read + 1⟩, [])
    else
      let (s', events) := begin b
      (s', .broken s.read :: events)

/-- The text of a byte string, each broken part replaced by U+FFFD. -/
def lossy (bs : Bytes) : String :=
  let put (text : String) : Event → String
    | .character c => text.push c
    | .broken _ => text.push '\uFFFD'
  let (s, text) := bs.foldl (fun (s, text) b =>
    let (s, events) := step s b
    (s, events.foldl put text)) ((⟨[], 0, 0⟩ : State), "")
  if s.owed.isEmpty then text else text.push '\uFFFD'

/-- Why a byte string is no text. -/
inductive Fault where
  /-- After `valid` good bytes come `length` that cannot be continued to a character. -/
  | invalid (length valid : Nat)
  /-- After `valid` good bytes the string ends inside a character. -/
  | incomplete (valid : Nat)
  deriving DecidableEq, Repr

def Fault.message : Fault → String
  | .invalid length valid => s!"invalid utf-8 sequence of {length} bytes from index {valid}"
  | .incomplete valid => s!"incomplete utf-8 byte sequence from index {valid}"

/-- The first broken part, `valid` bytes having been read before it. -/
def fault? : State → Nat → Bytes → Option Fault
  | s, valid, [] => if s.owed.isEmpty then none else some (.incomplete valid)
  | s, valid, b :: rest =>
    match step s b with
    | (_, .broken length :: _) => some (.invalid length valid)
    | (s', .character c :: _) => fault? s' (valid + c.utf8Size) rest
    | (s', []) => fault? s' valid rest

/-- The text that a byte string spells. -/
def decode (bs : Bytes) : Except Fault String :=
  match String.fromUTF8? bs.toByteArray with
  | some text => .ok text
  | none => .error ((fault? ⟨[], 0, 0⟩ 0 bs).getD (.incomplete 0))

end Lexicon.Text.Utf8

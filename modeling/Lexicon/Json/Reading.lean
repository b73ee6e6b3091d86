import Lexicon.Cursor
import Lexicon.Json.Fault
import Lexicon.Number.TenPower
import Lexicon.Text.Utf8

/-!
# Reading JSON

A `Reading` takes what is wanted straight from the bytes of a JSON text and stops at the first
thing that is wrong, be it a fault of the syntax or a value that is not wanted. Where the syntax is
at fault the place is known at once; a value that is not wanted is placed where its reading ended
(`Reading.placed`).

This module reads the single values: words, numbers and texts.
-/

namespace Lexicon.Json

/-- A fault, and the number of bytes before its place if that is known. -/
structure Stop where
  fault : Fault
  place : Option Nat := none
  deriving DecidableEq, Repr

/-- A computation that reads from a JSON text. -/
abbrev Reading := EStateM Stop Cursor

/-- The character that a byte stands for, if it is ASCII. -/
def letter (b : UInt8) : Char := Char.ofNat b.toNat

/-- Whether a byte of a text may stand between two values. -/
def isSpace (b : UInt8) : Bool := b = 0x20 || b = 0x09 || b = 0x0A || b = 0x0D

namespace Reading

/-- The next byte, which stays. -/
def peek : Reading (Option Char) := fun c => .ok (c.rest.head?.map letter) c

/-- The next byte. -/
def next : Reading (Option Char) := fun c =>
  .ok (c.rest.head?.map letter) (c.advance c.rest.head?.toList.length)

/-- Drops the next byte. -/
def drop : Reading Unit := fun c => .ok () (c.advance 1)

/-- The next byte after any blanks, which stays. -/
def token : Reading (Option Char) := fun c =>
  peek (c.advance (c.rest.takeWhile isSpace).length)

/-- Stops behind what was read. -/
def stop {α : Type} (fault : Fault) : Reading α := fun c => .error ⟨fault, some c.position⟩ c

/-- Stops that many bytes before the end of what was read. -/
def stopBefore {α : Type} (count : Nat) (fault : Fault) : Reading α := fun c =>
  .error ⟨fault, some (c.position - count)⟩ c

/-- Stops behind the next byte, if there is one. -/
def stopAtNext {α : Type} (fault : Fault) : Reading α := fun c =>
  .error ⟨fault, some (c.position + c.rest.head?.toList.length)⟩ c

/-- Stops at a place that is still to be settled. -/
def refuse {α : Type} (fault : Fault) : Reading α := throw ⟨fault, none⟩

/-- Settles the place of a stop. -/
def placed {α : Type} (r : Reading α) : Reading α := fun c =>
  match r c with
  | .ok a c => .ok a c
  | .error s c => .error { s with place := some (s.place.getD c.position) } c

/-- The rest of a word whose first letter was read. -/
def word : List Char → Reading Unit
  | [] => pure ()
  | c :: cs => do
    match ← next with
    | none => stop (.ends .value)
    | some d => if c = d then word cs else stop .expectedWord

/-! ## Numbers -/

/-- The digits from here on. -/
def digits : Reading (List Char) := fun c =>
  let found := (c.rest.map letter).takeWhile Char.isDigit
  .ok found (c.advance found.length)

/-- The digits of a whole part, of which the first was read. -/
def wholePart : Char → Reading (List Char)
  | '0' => do
    if ((← peek).map Char.isDigit).getD false then stopAtNext .badNumber
    return ['0']
  | c => return c :: (← digits)

/-- The digits behind a point, if there is one. -/
def fraction : Reading (List Char) := do
  if (← peek) ≠ some '.' then return []
  drop
  let found ← digits
  if found.isEmpty then stopAtNext (if (← peek).isNone then .ends .value else .badNumber)
  return found

/-- Appends digits to a number as long as it stays below a limit. What does not fit comes second. -/
def appended (limit : Nat) : Nat → List Char → Nat × List Char
  | n, [] => (n, [])
  | n, c :: cs =>
    let next := 10 * n + (c.toNat - '0'.toNat)
    if next < limit then appended limit next cs else (n, c :: cs)

/-- The power of ten behind the letter for it, if there is one; none if the number is zero because
of it. A power of 2^31 or more makes everything zero or too large, which shows in its first digit
beyond. -/
def power (isZero : Bool) : Reading (Option Int) := do
  match ← peek with
  | some 'e' | some 'E' =>
    drop
    let sign ← peek
    if sign = some '+' ∨ sign = some '-' then drop
    match ← next with
    | none => stop (.ends .value)
    | some c =>
      if !c.isDigit then stop .badNumber
      match appended (2 ^ 31) 0 (c :: (← digits)) with
      | (n, []) => return some (if sign = some '-' then -n else n)
      | (_, _ :: rest) =>
        if isZero ∨ sign = some '-' then return none
        else stopBefore rest.length .outOfRange
  | _ => return some 0

/-- A number whose sign was read. A number without a point and a power is whole if it has no more
than 64 bits; a zero below zero is not. Of any other number as many digits are taken as fit into 64
bits, and the result is scaled by a power of ten. -/
def number (negative : Bool) : Reading Found := do
  match ← next with
  | none => stop (.ends .value)
  | some c =>
    if !c.isDigit then stop .badNumber
    let (n, beyond) := appended (2 ^ 64) 0 (← wholePart c)
    let simple := beyond.isEmpty ∧ (← peek) ≠ some '.' ∧ (← peek) ≠ some 'e' ∧ (← peek) ≠ some 'E'
    if simple ∧ negative ∧ 0 < n ∧ n ≤ 2 ^ 63 then return .negative n
    if simple ∧ !negative then return .natural n
    let places ← fraction
    let (n, left) := appended (2 ^ 64) n places
    -- digits that did not fit before the point count as powers of ten, those after it not at all
    let exponent : Int := beyond.length - (places.length - left.length : Nat)
    match ← power (n = 0) with
    | none => return .real negative ⟨0, 0⟩
    | some power =>
      match Binary64.scaledByTen? n (exponent + power) with
      | some x => return .real negative x
      | none => stop .outOfRange

/-! ## Texts -/

/-- The value of four hexadecimal digits. -/
def hexDigits : Reading Nat := fun c =>
  let four := c.rest.take 4
  if four.length < 4 then stop (.ends .text) (c.advance four.length)
  else
    let value? (d : Char) : Option Nat :=
      if d.isDigit then some (d.toNat - '0'.toNat)
      else if 'a' ≤ d ∧ d ≤ 'f' then some (d.toNat - 'a'.toNat + 10)
      else if 'A' ≤ d ∧ d ≤ 'F' then some (d.toNat - 'A'.toNat + 10)
      else none
    let value := four.foldl (fun n b => do return 16 * (← n) + (← value? (letter b))) (some 0)
    match value with
    | some n => .ok n (c.advance 4)
    | none => stop .badEscape (c.advance 4)

/-- Reads a character that has to come here within an escape. -/
def within (wanted : Char) : Reading Unit := do
  match ← next with
  | none => stop (.ends .text)
  | some c => if c ≠ wanted then stop .cutEscape

/-- The character whose number follows; one above U+FFFF is written as a pair of surrogates. -/
def numbered : Reading Char := do
  let n ← hexDigits
  if 0xDC00 ≤ n ∧ n ≤ 0xDFFF then stop .loneSurrogate
  if n < 0xD800 ∨ 0xDBFF < n then return Char.ofNat n
  -- the first half of a pair: the second has to follow at once
  within '\\'
  within 'u'
  let low ← hexDigits
  if low < 0xDC00 ∨ 0xDFFF < low then stop .loneSurrogate
  return Char.ofNat ((n - 0xD800) * 0x400 + (low - 0xDC00) + 0x10000)

/-- What a letter behind a backslash stands for. -/
def escaped? : Char → Option Char
  | '"' => some '"'
  | '\\' => some '\\'
  | '/' => some '/'
  | 'b' => some '\x08'
  | 'f' => some '\x0c'
  | 'n' => some '\n'
  | 'r' => some '\r'
  | 't' => some '\t'
  | _ => none

/-- The character of an escape whose backslash was read. -/
def escape : Reading Char := do
  match ← next with
  | none => stop (.ends .text)
  | some 'u' => numbered
  | some c =>
    match escaped? c with
    | some c => return c
    | none => stop .badEscape

/-- The bytes of a text up to its closing quote, of which at most `steps` are left. -/
def quotedBytes : Nat → Reading Bytes
  | 0 => stop (.ends .text)
  | steps + 1 => do
    match (← get).rest.head? with
    | none => stop (.ends .text)
    | some b =>
      drop
      if letter b = '"' then return []
      else if letter b = '\\' then
        let c ← escape
        return Bytes.ofString (String.singleton c) ++ (← quotedBytes steps)
      else if b < 0x20 then stop .control
      else return b :: (← quotedBytes steps)

/-- A text whose opening quote was read. -/
def quoted : Reading String := do
  return Text.Utf8.lossy (← quotedBytes ((← get).remaining + 1))

/-! ## Values that are not wanted -/

/-- What stands here. Of a list or a record nothing is read. -/
def found : Reading Found := do
  match ← peek with
  | some 'n' => do drop; word ['u', 'l', 'l']; return .null
  | some 't' => do drop; word ['r', 'u', 'e']; return .truth true
  | some 'f' => do drop; word ['a', 'l', 's', 'e']; return .truth false
  | some '-' => do drop; number true
  | some '"' => do drop; return .text (← quoted)
  | some '[' => return .list
  | some '{' => return .record
  | some c => if c.isDigit then number false else stopAtNext .expectedValue
  | none => stopAtNext .expectedValue

/-- Refuses what stands here. -/
def unwanted {α : Type} (wanted : String) : Reading α := do refuse (.wrongKind (← found) wanted)

/-! ## Values that are wanted -/

/-- A whole number below `limit`; `wanted` names such numbers. -/
def whole (limit : Nat) (wanted : String) : Reading Nat := placed do
  let check : Found → Reading Nat
    | .natural n => if n < limit then return n else refuse (.wrongValue (.natural n) wanted)
    | .negative n => refuse (.wrongValue (.negative n) wanted)
    | f => refuse (.wrongKind f wanted)
  match ← token with
  | none => stopAtNext (.ends .value)
  | some '-' => do drop; check (← number true)
  | some c => if c.isDigit then check (← number false) else unwanted wanted

/-- A text; `wanted` names such texts. -/
def text (wanted : String) : Reading String := placed do
  match ← token with
  | none => stopAtNext (.ends .value)
  | some '"' => do drop; quoted
  | some _ => unwanted wanted

/-- Nothing. -/
def null : Reading Unit := placed do
  match ← token with
  | none => stopAtNext (.ends .value)
  | some 'n' => do drop; word ['u', 'l', 'l']
  | some _ => unwanted "unit"

end Reading

end Lexicon.Json

import Lexicon.Json.Reading

/-!
# Skipping JSON values

A value that nobody wants is skipped, whatever it is and however deep. It still has to be JSON,
except that a text may hold half of a surrogate pair. What is open at a place is a stack of lists
and records.
-/

namespace Lexicon.Json

/-- A list or a record. -/
inductive Bracket where
  | list
  | record
  deriving DecidableEq, Repr

namespace Bracket

def closing : Bracket → Char
  | .list => ']'
  | .record => '\x7d'

/-- The fault of a text that ends inside. -/
def cut : Bracket → Fault
  | .list => .ends .list
  | .record => .ends .record

/-- The fault of anything but a comma or the end behind a value. -/
def unclosed : Bracket → Fault
  | .list => .expectedListEnd
  | .record => .expectedRecordEnd

end Bracket

namespace Reading

/-- The digits of a number whose sign was read. -/
def skipNumber : Reading Unit := do
  match ← next with
  | none => stop .badNumber
  | some c =>
    if !c.isDigit then stop .badNumber
    let _ ← wholePart c
    if (← peek) = some '.' then
      drop
      if (← digits).isEmpty then stopAtNext .badNumber
    let mark ← peek
    if mark = some 'e' ∨ mark = some 'E' then
      drop
      let sign ← peek
      if sign = some '+' ∨ sign = some '-' then drop
      if ((← next).map Char.isDigit).getD false then
        let _ ← digits
      else stop .badNumber

/-- A text up to its closing quote, of which at most `steps` bytes are left. -/
def skipQuoted : Nat → Reading Unit
  | 0 => stop (.ends .text)
  | steps + 1 => do
    match ← peek with
    | none => stop (.ends .text)
    | some '"' => drop
    | some '\\' =>
      drop
      match ← next with
      | none => stop (.ends .text)
      | some 'u' => let _ ← hexDigits
      | some c => if (escaped? c).isNone then stop .badEscape
      skipQuoted steps
    | some c => if c < ' ' then stop .control else do drop; skipQuoted steps

/-- The colon between the key and the value of a record. -/
def colon : Reading Unit := do
  match ← token with
  | some ':' => drop
  | some _ => stopAtNext .expectedColon
  | none => stopAtNext (.ends .record)

/-- The key before a value, in a record. -/
def skipKey : Bracket → Reading Unit
  | .list => pure ()
  | .record => do
    match ← token with
    | some '"' =>
      drop
      skipQuoted ((← get).remaining + 1)
      colon
    | some _ => stopAtNext .keyNotText
    | none => stopAtNext (.ends .record)

/-- What follows a value inside of brackets: closes those that end here, up to the first in
which another value follows. -/
def leave : List Bracket → Reading (List Bracket)
  | [] => pure []
  | b :: outer => do
    match ← token with
    | some ',' => do drop; skipKey b; return b :: outer
    | some c => if c = b.closing then do drop; leave outer else stopAtNext b.unclosed
    | none => stopAtNext b.cut

/-- What follows an opening bracket. -/
def enter (b : Bracket) (outer : List Bracket) : Reading (List Bracket) := do
  drop
  match ← token with
  | some c => if c = b.closing then do drop; leave outer else do skipKey b; return b :: outer
  | none => stopAtNext b.cut

/-- Skips a value and what follows it up to the end of the outermost bracket. A value takes at least
one of the bytes that are left, of which there are fewer than `steps`. -/
def skipFrom : Nat → List Bracket → Reading Unit
  | 0, _ => stop (.ends .value)
  | steps + 1, open' => do
    let inside ← match ← token with
      | none => stopAtNext (.ends .value)
      | some '[' => enter .list open'
      | some '{' => enter .record open'
      | some c => do
        match c with
        | 'n' => do drop; word ['u', 'l', 'l']
        | 't' => do drop; word ['r', 'u', 'e']
        | 'f' => do drop; word ['a', 'l', 's', 'e']
        | '"' => do drop; skipQuoted ((← get).remaining + 1)
        | '-' => do drop; skipNumber
        | c => if c.isDigit then skipNumber else stopAtNext .expectedValue
        leave open'
    if inside.isEmpty then return
    skipFrom steps inside

/-- Skips a value. -/
def skip : Reading Unit := do skipFrom ((← get).remaining + 1) []

end Reading

end Lexicon.Json

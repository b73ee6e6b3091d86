import Lexicon.Cursor
import Lexicon.Stream.Item
import Lexicon.Term.State

/-!
# Term statistics in a block

Most terms occur once. Such terms in a row are stored as one record, their number; every other term
has a record with the number of its documents and, in fields with frequencies, how much more often
it occurs. The lowest bit of a record tells which it is.
-/

namespace Lexicon.BlockStats

/-- Whether a term is counted only. -/
def single (hasFreqs : Bool) (s : TermStats) : Bool :=
  s.docFreq = 1 && (!hasFreqs || s.totalFreq = 1)

/-- The record of so many single terms in a row. -/
def runItems (count : Nat) : List Item :=
  if count = 0 then [] else [.nat32 (2 * (count - 1) + 1)]

/-- The record of a term that is not counted only. -/
def termItems (hasFreqs : Bool) (s : TermStats) : List Item :=
  .vint (s.docFreq <<< 1)
    :: (if hasFreqs then [.vlong (s.totalFreq - s.docFreq.toUInt64)] else [])

/-- The records of terms after so many single ones. -/
def items (hasFreqs : Bool) : Nat → List TermStats → List Item
  | count, [] => runItems count
  | count, s :: rest =>
    if single hasFreqs s then items hasFreqs (count + 1) rest
    else runItems count ++ termItems hasFreqs s ++ items hasFreqs 0 rest

/-- The bytes of the statistics of a row of terms. -/
def encode (hasFreqs : Bool) (row : List TermStats) : Bytes := Item.encodeAll (items hasFreqs 0 row)

/-- A place in a row of statistics. -/
structure Reader where
  input : Cursor
  hasFreqs : Bool
  /-- Single terms still to come of the last record. -/
  singles : Nat := 0

namespace Reader

def exhausted (r : Reader) : Bool := r.singles == 0 && r.input.atEnd

/-- Reads the record of a term, and how many single ones follow it. -/
def record (hasFreqs : Bool) : Read (TermStats × Nat) := do
  let token ← Read.vint
  -- this term is one of the row that the record stands for
  if token % 2 = 1 then return (⟨1, 1⟩, token / 2)
  let docFreq := token / 2
  let more ← if hasFreqs then Read.vlong else pure 0
  return (⟨UInt32.ofNat docFreq, UInt64.ofNat (docFreq + more)⟩, 0)

/-- The statistics of the next term. -/
def next : EStateM Error Reader TermStats := fun r =>
  if 0 < r.singles then .ok ⟨1, 1⟩ { r with singles := r.singles - 1 }
  else
    match record r.hasFreqs r.input with
    | .ok (s, singles) input => .ok s { r with input, singles }
    | .error e input => .error e { r with input }

end Reader

end Lexicon.BlockStats

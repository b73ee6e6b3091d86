import Lexicon.Field.Summary

/-!
# The directory of fields

The summaries of all fields of a segment, in the order of their numbers, and where the two other
streams end. A directory lists only fields that are known, each once.
-/

namespace Lexicon

/-- The directory of a segment. -/
structure Directory where
  fields : List FieldSummary
  /-- Number of bytes of the stream of indexes. -/
  indexEnd : UInt64
  /-- Number of bytes of the stream of blocks. -/
  termsEnd : UInt64
  deriving DecidableEq, Repr

namespace Directory

def items (d : Directory) : List Item :=
  .nat32 d.fields.length :: d.fields.flatMap FieldSummary.items
    ++ [.vlong d.indexEnd, .vlong d.termsEnd]

/-- Reads `count` summaries, whose numbers are above that of the one before. -/
def readFields (infos : List FieldInfo) : Option UInt32 → Nat → Read (List FieldSummary)
  | _, 0 => pure []
  | previous, count + 1 => do
    let summary ← FieldSummary.read infos
    match previous.filter (summary.number ≤ ·) with
    | some previous => Read.corrupt (.fieldOrder summary.number.toNat previous.toNat)
    | none => return summary :: (← readFields infos (some summary.number) count)

/-- Reads the directory of some of the given fields. -/
def read (infos : List FieldInfo) : Read Directory := do
  let count ← Read.vint
  if infos.length < count then Read.corrupt (.tooManyFields count infos.length)
  let fields ← readFields infos none count
  let indexEnd ← Read.vlong
  let termsEnd ← Read.vlong
  return ⟨fields, .ofNat indexEnd, .ofNat termsEnd⟩

end Directory

end Lexicon

import Lexicon.Error

/-!
# What is known of a term

A field tells what is indexed for its terms. A term has the number of documents that hold it, the
number of times it occurs in all of them, and numbers that mean something to the reader of its
document list only.
-/

namespace Lexicon

/-- What is indexed for each term of a field; each option holds all that those before it hold. -/
inductive IndexOptions where
  | docs
  | freqs
  | positions
  | offsets
  deriving DecidableEq, Repr, Inhabited

namespace IndexOptions

/-- Whether it is known how often a term occurs in a document. -/
def hasFreqs : IndexOptions → Bool
  | .docs => false
  | _ => true

/-- Whether it is known where a term occurs in a document. -/
def hasPositions : IndexOptions → Bool
  | .docs | .freqs => false
  | _ => true

def name : IndexOptions → String
  | .docs => "docs"
  | .freqs => "docs_and_freqs"
  | .positions => "docs_and_freqs_and_positions"
  | .offsets => "docs_and_freqs_and_positions_and_offsets"

def ofName? : String → Option IndexOptions
  | "docs" => some .docs
  | "docs_and_freqs" => some .freqs
  | "docs_and_freqs_and_positions" => some .positions
  | "docs_and_freqs_and_positions_and_offsets" => some .offsets
  | _ => none

end IndexOptions

/-- The descriptor of a field. -/
structure FieldInfo where
  name : String
  number : UInt32
  options : IndexOptions := .freqs
  deriving DecidableEq, Repr, Inhabited

/-- In how many documents a term occurs, and how often in all of them. -/
structure TermStats where
  docFreq : UInt32
  totalFreq : UInt64
  deriving DecidableEq, Repr

/-- All that is kept of a term. -/
structure TermState extends TermStats where
  /-- Numbers that only the reader of the term's document list understands. -/
  longs : List UInt64 := []
  deriving DecidableEq, Repr

namespace TermState

/-- Largest number of documents that a term may have. -/
def maxDocFreq : Nat := 2 ^ 31 - 1

/-- Refuses statistics that no list of documents has. -/
def check (s : TermState) (hasFreqs : Bool) : Except Error Unit :=
  if s.docFreq = 0 then .error (.invalidTermState .noDocuments)
  else if maxDocFreq < s.docFreq.toNat then
    .error (.invalidTermState (.tooManyDocuments s.docFreq.toNat))
  else if hasFreqs ∧ s.totalFreq.toNat < s.docFreq.toNat then
    .error (.invalidTermState (.totalBelowDocuments s.totalFreq.toNat s.docFreq.toNat))
  else .ok ()

/-- The state as a field keeps it: without frequencies, a term occurs once in each document. -/
def normalized (s : TermState) (hasFreqs : Bool) : TermState :=
  if hasFreqs then s else { s with totalFreq := s.docFreq.toUInt64 }

end TermState

end Lexicon

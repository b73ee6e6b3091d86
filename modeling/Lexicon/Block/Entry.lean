import Lexicon.Term.State
import Lexicon.Transducer.Basic

/-!
# Entries

A block holds terms and, for runs of terms that became blocks of their own, those blocks. A
`SubBlock` stands for all the terms that start with its prefix.
-/

namespace Lexicon

/-- A run of entries with a common prefix that was written as one or more blocks. -/
structure SubBlock where
  /-- What all terms of the run start with. -/
  stem : Bytes
  /-- Where its first block starts. -/
  fp : Nat
  /-- Whether its first block holds terms. -/
  hasTerms : Bool
  /-- Whether it is more than one block. -/
  isFloor : Bool
  lead : Option UInt8 := none
  /-- Maps its prefix and those of all runs below it to where their blocks are. -/
  index : Transducer
  deriving DecidableEq, Repr

/-- One entry of a block. -/
inductive Entry where
  | term (key : Bytes) (state : TermState)
  | block (b : SubBlock)
  deriving DecidableEq, Repr

namespace Entry

/-- What the entry is sorted by. -/
def key : Entry → Bytes
  | .term key _ => key
  | .block b => b.stem

def isTerm : Entry → Bool
  | .term .. => true
  | .block _ => false

/-- The byte after a prefix of the given length; a term that is the prefix has none. -/
def lead (e : Entry) (depth : Nat) : Option UInt8 := e.key[depth]?

end Entry

end Lexicon

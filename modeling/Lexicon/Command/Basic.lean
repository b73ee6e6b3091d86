import Lexicon.Block.Sizes
import Lexicon.Path

/-!
# Commands

What a user can ask for: to build a segment from a listing, and to look into one.
-/

namespace Lexicon

/-- Where a segment lies. -/
structure Place where
  dir : Path
  segment : String
  deriving DecidableEq, Repr

/-- What to build a segment from, and how. -/
structure BuildRequest where
  listing : Path
  place : Place
  minBlock : Option Nat := none
  maxBlock : Option Nat := none
  /-- A file with block sizes. -/
  config : Option Path := none
  /-- Whether to tell nothing of what was done. -/
  quiet : Bool := false
  deriving DecidableEq, Repr

inductive Command where
  | build (request : BuildRequest)
  | stats (place : Place) (json : Bool)
  | lookup (place : Place) (field term : String)
  /-- Lists the terms of a field that start with a text. -/
  | dump (place : Place) (field start : String)
  deriving DecidableEq, Repr

/-- A command and how to show its result. -/
structure Invocation where
  command : Command
  styled : Bool := true
  deriving DecidableEq, Repr

end Lexicon

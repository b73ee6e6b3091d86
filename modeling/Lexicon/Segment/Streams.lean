import Lexicon.Segment
import Lexicon.Stream.Frame

/-!
# The streams of a dictionary

A dictionary is three streams: the blocks, the indexes of the fields, and the directory.
-/

namespace Lexicon

/-- One thing for each stream of a dictionary. -/
structure Streams (α : Type) where
  terms : α
  index : α
  directory : α
  deriving DecidableEq, Repr

namespace Streams

/-- The codec names in the headers of the streams. -/
def codecs : Streams String := ⟨"BlockTreeTermsDict", "BlockTreeTermsIndex", "BlockTreeTermsMeta"⟩

/-- The extensions of the files of the streams. -/
def extensions : Streams String :=
  ⟨Segment.termsExtension, Segment.indexExtension, Segment.metaExtension⟩

def map {α β : Type} (f : α → β) (s : Streams α) : Streams β :=
  ⟨f s.terms, f s.index, f s.directory⟩

/-- The names of a segment's streams. -/
def names (segment : Segment) : Streams String := extensions.map segment.fileName

/-- What a reader expects of the header of a segment's stream. -/
def expectation (segment : Segment) (codec : String) : Frame.Expectation :=
  { codec, id := segment.id.bytes, suffix := segment.suffix }

/-- The header of a segment's stream. -/
def header (segment : Segment) (codec : String) : List Item :=
  Frame.header codec Frame.version segment.id.bytes segment.suffix

/-- Block shift of the table of index starts. -/
def startsShift : Nat := 4

end Streams

end Lexicon

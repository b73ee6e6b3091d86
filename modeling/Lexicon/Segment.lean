import Lexicon.Bytes
import Lexicon.Text.Hex

/-!
# Segments and their files

A segment is a dictionary that was written in one piece. Its identity is a name, sixteen bytes that
tell it from every other segment, and a suffix that may be empty; all its files are named after it.
-/

namespace Lexicon

/-- The sixteen bytes that tell segments apart. -/
structure SegmentId where
  bytes : Bytes
  length_eq : bytes.length = 16
  deriving DecidableEq, Repr

namespace SegmentId

def ofBytes? (bytes : Bytes) : Option SegmentId :=
  if h : bytes.length = 16 then some ⟨bytes, h⟩ else none

def hex (id : SegmentId) : String := Text.Hex.ofBytes id.bytes

instance : Inhabited SegmentId := ⟨⟨List.replicate 16 0, rfl⟩⟩

end SegmentId

/-- The identity of a segment. -/
structure Segment where
  name : String
  id : SegmentId
  suffix : String := ""
  deriving DecidableEq, Repr, Inhabited

namespace Segment

/-- The name of the segment's file with the given extension. -/
def fileName (s : Segment) (extension : String) : String :=
  if s.suffix.isEmpty then s.name ++ "." ++ extension
  else s.name ++ "_" ++ s.suffix ++ "." ++ extension

/-- Extension of the stream of blocks. -/
def termsExtension : String := "tim"

/-- Extension of the stream of indexes. -/
def indexExtension : String := "tip"

/-- Extension of the stream that holds the directory of fields. -/
def metaExtension : String := "tmd"

/-- Extension of the descriptor. -/
def descriptorExtension : String := "fnm.json"

/-- Extension of the stream of document lists. -/
def postingsExtension : String := "doc"

end Segment

end Lexicon

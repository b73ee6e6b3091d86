import Lexicon.Block.Sizes
import Lexicon.Json.Printer
import Lexicon.Json.Record
import Lexicon.Segment
import Lexicon.Stream.Frame
import Lexicon.Term.State

/-!
# The descriptor of a segment

Beside its streams a segment has a descriptor, which tells a reader what the streams do not: the
identity of the segment and its fields. A descriptor is a JSON text. `Descriptor.toText` writes it
and `Descriptor.ofText` reads it; of what a descriptor holds only the suffix, the options of a field
and the block sizes have defaults.
-/

namespace Lexicon

/-- Reads a number of 32 bits. -/
def readWord32 : Json.Reading UInt32 := UInt32.ofNat <$> Json.Reading.whole (2 ^ 32) "u32"

/-- Reads any text. -/
def readText : Json.Reading String := Json.Reading.text "a string"

/-! ## Block sizes -/

namespace BlockSizes

def reading : Json.Reading BlockSizes :=
  let size := Json.Reading.whole (2 ^ 64) "usize"
  Json.Reading.record "struct BlockTreeConfig" ({} : BlockSizes)
    [⟨"min_items_in_block", false, fun s => return { s with min := ← size }⟩,
      ⟨"max_items_in_block", false, fun s => return { s with max := ← size }⟩]

/-- The sizes that a text gives, which may be sizes that cannot be used. -/
def ofText (text : String) : Except Json.Misread BlockSizes := Json.read reading text

def toJson (s : BlockSizes) : Json.Value :=
  .record [("min_items_in_block", .natural s.min), ("max_items_in_block", .natural s.max)]

end BlockSizes

/-! ## Fields -/

/-- Every option under its name. -/
def IndexOptions.choices : List (String × IndexOptions) :=
  [IndexOptions.docs, .freqs, .positions, .offsets].map fun o => (o.name, o)

namespace FieldInfo

def reading : Json.Reading FieldInfo :=
  Json.Reading.record "struct FieldInfo" ({ name := "", number := 0 } : FieldInfo)
    [⟨"name", true, fun i => return { i with name := ← readText }⟩,
      ⟨"number", true, fun i => return { i with number := ← readWord32 }⟩,
      ⟨"index_options", false, fun i =>
        return { i with options := ← Json.Reading.choice IndexOptions.choices }⟩]

/-- The field that a text describes. -/
def ofText (text : String) : Except Json.Misread FieldInfo := Json.read reading text

def toJson (i : FieldInfo) : Json.Value :=
  .record [("name", .text i.name), ("number", .natural i.number.toNat),
    ("index_options", .text i.options.name)]

end FieldInfo

/-! ## Segments -/

namespace Segment

/-- Reads the sixteen bytes of an identity. -/
def readId : Json.Reading SegmentId := do
  let bytes ← Json.Reading.tuple (UInt8.ofNat <$> Json.Reading.whole (2 ^ 8) "u8") 16
  match SegmentId.ofBytes? bytes with
  | some id => return id
  | none => Json.Reading.refuse (.wrongLength bytes.length "an array of length 16")

def reading : Json.Reading Segment :=
  Json.Reading.record "struct SegmentInfo" (default : Segment)
    [⟨"name", true, fun s => return { s with name := ← readText }⟩,
      ⟨"id", true, fun s => return { s with id := ← readId }⟩,
      ⟨"suffix", false, fun s => return { s with suffix := ← readText }⟩]

def toJson (s : Segment) : Json.Value :=
  .record [("name", .text s.name),
    ("id", .list (s.id.bytes.map fun b => .natural b.toNat)), ("suffix", .text s.suffix)]

end Segment

/-! ## Descriptors -/

/-- The descriptor of a segment. -/
structure Descriptor where
  version : UInt32 := Frame.version
  segment : Segment
  sizes : BlockSizes
  fields : List FieldInfo
  docCount : UInt32
  /-- When the segment was written, in seconds. -/
  createdAt : UInt64
  deriving DecidableEq, Repr, Inhabited

namespace Descriptor

/-- Reads a descriptor; what it starts from is replaced field by field. -/
def reading : Json.Reading Descriptor :=
  Json.Reading.record "struct SegmentMeta" (default : Descriptor)
    [⟨"version", true, fun d => return { d with version := ← readWord32 }⟩,
      ⟨"segment", true, fun d => return { d with segment := ← Segment.reading }⟩,
      ⟨"config", true, fun d => return { d with sizes := ← BlockSizes.reading }⟩,
      ⟨"fields", true, fun d => return { d with fields := ← Json.Reading.list FieldInfo.reading }⟩,
      ⟨"doc_count", true, fun d => return { d with docCount := ← readWord32 }⟩,
      ⟨"created_at", true, fun d =>
        return { d with createdAt := .ofNat (← Json.Reading.whole (2 ^ 64) "u64") }⟩]

def ofText (text : String) : Except Json.Misread Descriptor := Json.read reading text

def toJson (d : Descriptor) : Json.Value :=
  .record [("version", .natural d.version.toNat), ("segment", d.segment.toJson),
    ("config", d.sizes.toJson), ("fields", .list (d.fields.map FieldInfo.toJson)),
    ("doc_count", .natural d.docCount.toNat), ("created_at", .natural d.createdAt.toNat)]

def toText (d : Descriptor) : String := d.toJson.toText

end Descriptor

end Lexicon

import Lexicon.Build
import Lexicon.Json.Printer
import Lexicon.Text.Quoted

/-!
# Reports on segments

What a segment takes up and how its fields are laid out in blocks. A report is gathered from the
files of the segment and printed as plain text or as JSON.
-/

namespace Lexicon

/-- A file of a segment and the number of its bytes. -/
structure FileReport where
  name : String
  bytes : Nat
  deriving DecidableEq, Repr

/-- How a field is laid out. -/
structure FieldReport where
  info : FieldInfo
  summary : FieldSummary
  /-- Number of prefixes in the index. -/
  indexKeys : Nat
  indexBytes : Nat
  blocks : List BlockShape
  deriving DecidableEq, Repr

namespace FieldReport

/-- Looks at all blocks of a field. -/
def gather (f : FieldReader) : Except Failure FieldReport :=
  match f.blockShapes {} with
  | .error e _ => .error ⟨[.walkBlocks f.info.name], .error e⟩
  | .ok blocks _ =>
    .ok { info := f.info, summary := f.summary, blocks
          indexKeys := (f.index.map (·.size)).getD 0
          indexBytes := (f.index.map (·.nodes.length)).getD 0 }

def minTerm (r : FieldReport) : String := Text.Utf8.lossy r.summary.minTerm

def maxTerm (r : FieldReport) : String := Text.Utf8.lossy r.summary.maxTerm

/-- Number of blocks without sub-blocks. -/
def leaves (r : FieldReport) : Nat := r.blocks.countP (·.isLeaf)

/-- Number of blocks of runs that were split. -/
def floors (r : FieldReport) : Nat := r.blocks.countP (·.isFloor)

/-- Number of entries of the largest block. -/
def maxEntries (r : FieldReport) : Nat := (r.blocks.map (·.entries)).foldl max 0

/-- Mean number of entries of a block. -/
def meanEntries (r : FieldReport) : Dyadic :=
  Binary64.quotient (r.blocks.foldl (fun sum b => sum + b.entries) 0) r.blocks.length

/-- Number of blocks under the name of each compression in use. -/
def compressions (r : FieldReport) : SortedMap String Nat :=
  r.blocks.foldl (fun m b => m.upsert b.compression.name fun before => before.getD 0 + 1) {}

def toJson (r : FieldReport) : Json.Value :=
  let total := match r.summary.sumTotalFreq with
    | some sum => .natural sum.toNat
    | none => .null
  .record [("name", .text r.info.name), ("number", .natural r.info.number.toNat),
    ("index_options", .text r.info.options.name), ("num_terms", .natural r.summary.terms.toNat),
    ("doc_count", .natural r.summary.docCount.toNat),
    ("sum_doc_freq", .natural r.summary.sumDocFreq.toNat), ("sum_total_term_freq", total),
    ("min_term", .text r.minTerm), ("max_term", .text r.maxTerm),
    ("index_keys", .natural r.indexKeys), ("index_bytes", .natural r.indexBytes),
    ("blocks", .natural r.blocks.length), ("leaf_blocks", .natural r.leaves),
    ("floor_blocks", .natural r.floors), ("max_block_entries", .natural r.maxEntries),
    ("avg_block_entries", .real r.meanEntries),
    ("compression",
      .record (r.compressions.toList.map fun (name, count) => (name, .natural count)))]

end FieldReport

/-- A report on a segment. -/
structure SegmentReport where
  segment : Segment
  files : List FileReport
  fields : List FieldReport
  deriving DecidableEq, Repr

namespace SegmentReport

/-- The extensions of all files of a segment, in the order of the report. -/
def extensions : List String :=
  [Segment.termsExtension, Segment.indexExtension, Segment.metaExtension,
    Segment.descriptorExtension, Segment.postingsExtension]

/-- The files of a segment that there are. -/
def filesOf (fs : Files) (dir : Path) (s : Segment) : List FileReport :=
  extensions.filterMap fun extension =>
    match fs.size (s.path dir extension) with
    | .ok bytes => some ⟨s.fileName extension, bytes⟩
    | .error _ => none

/-- Gathers the report on the segment with the given name in a directory. -/
def gather (fs : Files) (dir : Path) (name : String) : Except Failure SegmentReport := do
  let r ← Reader.openSegment fs dir name
  return { segment := r.segment, files := filesOf fs dir r.segment
           fields := ← r.fields.mapM FieldReport.gather }

def toJson (r : SegmentReport) : Json.Value :=
  .record [("segment", .text r.segment.name), ("id", .text r.segment.id.hex),
    ("files", .list (r.files.map fun f =>
      .record [("name", .text f.name), ("bytes", .natural f.bytes)])),
    ("fields", .list (r.fields.map FieldReport.toJson))]

end SegmentReport

/-! ## Plain text -/

/-- The name of what is indexed, as a report tells it. -/
def IndexOptions.title : IndexOptions → String
  | .docs => "Docs"
  | .freqs => "DocsAndFreqs"
  | .positions => "DocsAndFreqsAndPositions"
  | .offsets => "DocsAndFreqsAndPositionsAndOffsets"

/-- A number of bytes, in the largest unit that it reaches. -/
def sizeText (bytes : Nat) : String :=
  let inUnit (k : Nat) := Decimal.fixed 2 (Binary64.quotient bytes (1024 ^ k))
  if 1024 ^ 3 ≤ bytes then s!"{inUnit 3} GB"
  else if 1024 ^ 2 ≤ bytes then s!"{inUnit 2} MB"
  else if 1024 ≤ bytes then s!"{inUnit 1} KB"
  else s!"{bytes} bytes"

/-- A text with blanks behind it up to a width. -/
def padRight (width : Nat) (s : String) : String :=
  s ++ String.ofList (List.replicate (width - s.length) ' ')

namespace FieldReport

/-- The lines that tell how the terms of a field are laid out. -/
def layoutLines (r : FieldReport) : List String :=
  let counts := r.compressions.toList.map fun (name, count) => s!"{count} {name}"
  [s!"  Term range:     {Text.quoted r.minTerm} .. {Text.quoted r.maxTerm}",
    s!"  Index:          {r.indexKeys} prefixes, {sizeText r.indexBytes}",
    s!"  Blocks:         {r.blocks.length} ({r.leaves} leaf, {r.floors} floor)",
    s!"  Entries/block:  {Decimal.fixed 1 r.meanEntries} avg, {r.maxEntries} max",
    "  Compression:    " ++ ", ".intercalate counts]

def lines (r : FieldReport) : List String :=
  let total := match r.summary.sumTotalFreq with
    | some sum => [s!"  Sum term freq:  {sum}"]
    | none => []
  ["", s!"Field '{r.info.name}' (#{r.info.number}, {r.info.options.title})",
    s!"  Terms:          {r.summary.terms}",
    s!"  Documents:      {r.summary.docCount}",
    s!"  Sum doc freq:   {r.summary.sumDocFreq}"]
    ++ total ++ (if r.summary.hasTerms then r.layoutLines else [])

end FieldReport

namespace SegmentReport

/-- The lines of a report on a segment in a directory. -/
def lines (r : SegmentReport) (dir : Path) : List String :=
  ["Segment Statistics", "==================", "",
    s!"Segment:          {r.segment.name}",
    s!"Segment id:       {r.segment.id.hex}",
    s!"Location:         {dir.text}", "", "Files:"]
    ++ r.files.map (fun f => s!"  {padRight 20 f.name} {sizeText f.bytes}")
    ++ r.fields.flatMap FieldReport.lines

end SegmentReport

end Lexicon

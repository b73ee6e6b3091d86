import Lexicon.Listing
import Lexicon.Segment.Streams
import Lexicon.Segment.Writer

/-!
# Document lists

A stream of its own holds, term after term, which documents hold the term. A list is the number of
its documents and then, for each, the gap to the document before. In fields with frequencies the
lowest bit of a gap tells that the frequency is one, and any other frequency follows the gap. The
one number that a dictionary keeps of a term is where its list starts.
-/

namespace Lexicon

namespace DocFreqs

/-- The items of the documents behind `last`. -/
def gapItems (hasFreqs : Bool) : UInt32 → List (UInt32 × UInt32) → List Item
  | _, [] => []
  | last, (doc, freq) :: rest =>
    let gap := doc - last
    let entry : List Item :=
      if !hasFreqs then [.vint gap]
      else if freq = 1 then [.vint (gap <<< 1 ||| 1)]
      else [.vint (gap <<< 1), .vint freq]
    entry ++ gapItems hasFreqs doc rest

/-- The items of a list. -/
def items (docs : DocFreqs) (hasFreqs : Bool) : List Item :=
  .nat32 docs.size :: gapItems hasFreqs 0 docs.toList

/-- Reads `count` documents behind `last`, with their frequencies. -/
def readGaps (hasFreqs : Bool) : UInt32 → Nat → Read (List (UInt32 × UInt32))
  | _, 0 => pure []
  | last, count + 1 => do
    let code := UInt32.ofNat (← Read.vint)
    if !hasFreqs then
      let doc := last + code
      return (doc, 1) :: (← readGaps hasFreqs doc count)
    else
      let doc := last + code >>> 1
      let freq ← if code &&& 1 = 1 then pure 1 else UInt32.ofNat <$> Read.vint
      return (doc, freq) :: (← readGaps hasFreqs doc count)

/-- Reads a list. -/
def read (hasFreqs : Bool) : Read (List (UInt32 × UInt32)) := do
  readGaps hasFreqs 0 (← Read.vint)

/-- What a dictionary keeps of a term whose list starts at `offset`. -/
def state (docs : DocFreqs) (offset : Nat) : TermState :=
  { docFreq := UInt32.ofNat docs.size
    totalFreq := docs.values.foldl (fun sum freq => sum + freq.toUInt64) 0
    longs := [UInt64.ofNat offset] }

end DocFreqs

/-- What a dictionary takes in of a field: terms with their states and documents. -/
abbrev FieldTerms := List (Bytes × TermState × DocList)

namespace DocLists

/-- The name of the format. -/
def codec : String := "BlockTreePostings"

/-- The lists of terms, from `offset` on, and what a dictionary takes in of the terms. -/
def encodeTerms (hasFreqs : Bool) : Nat → List (Bytes × DocFreqs) → Bytes × FieldTerms
  | _, [] => ([], [])
  | offset, (term, docs) :: rest =>
    let list := Item.encodeAll (docs.items hasFreqs)
    let (lists, terms) := encodeTerms hasFreqs (offset + list.length) rest
    (list ++ lists, (term, docs.state offset, docs.keys) :: terms)

/-- The lists of fields, from `offset` on, and what a dictionary takes in of each. -/
def encodeFields : Nat → List FieldListing → Bytes × List FieldTerms
  | _, [] => ([], [])
  | offset, f :: rest =>
    let (lists, terms) := encodeTerms f.hasFreqs offset f.terms.toList
    let (others, fields) := encodeFields (offset + lists.length) rest
    (lists ++ others, terms :: fields)

/-- The header of the stream. -/
def header (segment : Segment) : Bytes := Item.encodeAll (Streams.header segment codec)

/-- The stream that holds the given lists. -/
def stream (segment : Segment) (lists : Bytes) : Bytes :=
  let write : Write Memory Unit := do
    Output.items (Streams.header segment codec)
    Output.item (.bytes lists)
    Frame.writeFooter
  match write ⟨segment.fileName Segment.postingsExtension, {}, {}⟩ with
  | .ok _ out | .error _ out => out.sink.bytes

/-- Refuses bytes that are no stream of lists of the segment; `name` is what messages call the
stream. -/
def check (data : Bytes) (name : String) (segment : Segment) : Except Error Unit := do
  let _ ← Frame.checkFooter data name
  let _ ← (Frame.readHeader (Streams.expectation segment codec)).run data

/-- Reads the list that starts at `offset`. -/
def readAt (data : Bytes) (offset : Nat) (hasFreqs : Bool) :
    Except Error (List (UInt32 × UInt32)) :=
  (DocFreqs.read hasFreqs).runAt data offset

end DocLists

end Lexicon

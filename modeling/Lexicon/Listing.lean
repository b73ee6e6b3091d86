import Lexicon.Listing.Line
import Lexicon.SortedMap
import Lexicon.Term.State

/-!
# Listings

A listing tells in plain text which documents hold which terms of which fields, in lines of any
order. Lines of one term add up: how often a term occurs in a document is the sum over all postings
that name the document, each without a number counting one. The sum is counted in 32 bits, and
reading a listing breaks off where it needs more. Empty lines and lines that start with `#` say
nothing.

`Listing.parse` reads a listing; `Listing.fieldInfos` numbers its fields in the order of their
bytes.
-/

namespace Lexicon

/-- How often a term occurs in each document that holds it. -/
abbrev DocFreqs := SortedMap UInt32 UInt32

namespace DocFreqs

/-- Counts a posting in the document that it names. -/
def put (docs : DocFreqs) (p : Posting) : DocFreqs :=
  docs.upsert p.doc fun before => before.getD 0 + p.freq.getD 1

/-- Adds a posting, unless its document would be counted beyond 32 bits. -/
def add (docs : DocFreqs) (p : Posting) : Except LineFault DocFreqs :=
  let before := (docs.get? p.doc).getD 0
  if before.toNat + (p.freq.getD 1).toNat < 2 ^ 32 then .ok (docs.put p)
  else .error (.overflow p.doc)

end DocFreqs

/-- What a listing says of a field. -/
structure FieldListing where
  name : String
  /-- Whether any posting tells how often. -/
  hasFreqs : Bool := false
  terms : SortedMap Bytes DocFreqs := {}

namespace FieldListing

/-- The field with these documents for a term, which postings told. -/
def update (f : FieldListing) (term : Bytes) (postings : List Posting) (docs : DocFreqs) :
    FieldListing :=
  { f with
    hasFreqs := f.hasFreqs || postings.any (·.freq.isSome)
    terms := f.terms.upsert term fun _ => docs }

/-- Adds the postings of a term, one after the other. -/
def add (f : FieldListing) (term : Bytes) (postings : List Posting) :
    Except LineFault FieldListing := do
  let docs ← postings.foldlM DocFreqs.add ((f.terms.get? term).getD {})
  return f.update term postings docs

/-- What is indexed for the terms of the field. -/
def options (f : FieldListing) : IndexOptions := if f.hasFreqs then .freqs else .docs

end FieldListing

/-- The fields of a listing under the bytes of their names. -/
structure Listing where
  fields : SortedMap Bytes FieldListing := {}
  /-- Number of lines that say something. -/
  lines : Nat := 0

/-- A line that says nothing, and why. -/
structure ListingFault where
  line : Nat
  fault : LineFault
  deriving DecidableEq, Repr

/-- The place of the fault, the fault, and its cause, if it has one. -/
def ListingFault.messages (f : ListingFault) : List String :=
  s!"line {f.line}" :: f.fault.messages

namespace Listing

/-- Whether a field has the term. -/
def has (l : Listing) (field term : Bytes) : Bool :=
  ((l.fields.get? field).bind (·.terms.get? term)).isSome

/-- The listing with this field under a key, which one more line told. -/
def update (l : Listing) (key : Bytes) (f : FieldListing) : Listing :=
  { fields := l.fields.upsert key fun _ => f, lines := l.lines + 1 }

/-- Adds the postings of a line. -/
def addPostings (l : Listing) (line : ListingLine) : Except LineFault Listing := do
  let before := (l.fields.get? line.fieldKey).getD { name := line.field }
  return l.update line.fieldKey (← before.add line.term line.postings)

/-- Adds what a line says. Only a term that has documents already may be without any. -/
def add (l : Listing) (line : ListingLine) : Except LineFault Listing :=
  if line.postings.isEmpty && !l.has line.fieldKey line.term then
    .error (.noDocuments line.term)
  else l.addPostings line

/-- A line without the carriage return at its end. -/
def withoutReturn (line : Bytes) : Bytes :=
  if line.getLast? = some 0x0D then line.dropLast else line

/-- Whether a line says something. -/
def speaks (line : Bytes) : Bool := line.head?.any (· ≠ 0x23)

/-- Adds a line of a text. Each posting is added before the next is read, so what is said before a
faulty posting is added before the fault is told. -/
def addLine (l : Listing) (line : Bytes) : Except LineFault Listing := do
  if speaks line then
    match ListingLine.parse line with
    | .ok line => l.add line
    | .error unread =>
      let _ ← unread.said.elim (.ok l) l.addPostings
      throw unread.fault
  else return l

/-- Adds the lines of a text from the one with the given number on. -/
def addLines (l : Listing) (number : Nat) : List Bytes → Except ListingFault Listing
  | [] => .ok l
  | line :: rest =>
    match l.addLine (withoutReturn line) with
    | .ok l => l.addLines (number + 1) rest
    | .error fault => .error ⟨number, fault⟩

/-- Reads a listing. -/
def parse (data : Bytes) : Except ListingFault Listing :=
  ({} : Listing).addLines 1 (splitAt 0x0A data)

/-- The descriptors of the fields, numbered in the order of the fields. -/
def fieldInfos (l : Listing) : List FieldInfo :=
  l.fields.values.zipIdx.map fun (f, number) => ⟨f.name, UInt32.ofNat number, f.options⟩

/-- Number of terms of all fields. -/
def terms (l : Listing) : Nat := l.fields.values.foldl (fun sum f => sum + f.terms.size) 0

end Listing

end Lexicon

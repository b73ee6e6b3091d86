import Lexicon.DocLists
import Lexicon.Failure
import Lexicon.Segment.Stored

/-!
# Building segments from listings

`Listing.build` writes a segment for a listing: the dictionary, in which the fields are numbered in
the order of their names, and beside it the stream of document lists. The lists are known before the
dictionary is written, since it keeps where they start; they are stored last.
-/

namespace Lexicon

/-- A computation on files that fails with what was being done. -/
abbrev Doing := EStateM Failure Files

namespace Doing

/-- Does something within a task. -/
def within {α : Type} (task : Task) (c : Doing α) : Doing α := fun fs =>
  match c fs with
  | .ok a fs => .ok a fs
  | .error f fs => .error (f.within task) fs

/-- Makes an error a failure. -/
def orFail {α : Type} (c : Stored α) : Doing α := fun fs =>
  match c fs with
  | .ok a fs => .ok a fs
  | .error e fs => .error (.of (.error e)) fs

/-- Makes a fault of files a failure. -/
def onFiles {α : Type} (c : OnFiles α) : Doing α := fun fs =>
  match c fs with
  | .ok a fs => .ok a fs
  | .error fault fs => .error (.of (.medium fault)) fs

/-- A result, or a failure for an error. -/
def ofExcept {α : Type} : Except Error α → Doing α
  | .ok a => pure a
  | .error e => throw (.of (.error e))

end Doing

/-- What was written for a listing. -/
structure BuildReport where
  segment : Segment
  fields : Nat
  /-- Number of terms of all fields. -/
  terms : Nat
  /-- Number of distinct documents. -/
  docs : Nat
  deriving DecidableEq, Repr

/-- What is written of a segment. -/
def Writer.report {σ : Type} (w : Writer σ) : BuildReport :=
  { segment := w.segment, fields := w.summaries.length
    terms := w.summaries.foldl (fun sum s => sum + s.terms.toNat) 0, docs := w.docCount }

namespace Listing

/-- The document lists of a segment, and what its dictionary takes in of each field. -/
def encode (l : Listing) (segment : Segment) : Bytes × List (FieldInfo × FieldTerms) :=
  let (lists, fields) := DocLists.encodeFields (DocLists.header segment).length l.fields.values
  (lists, l.fieldInfos.zip fields)

/-- Writes the fields of a dictionary. -/
def writeFields {σ : Type} [Sink σ] (fields : List (FieldInfo × FieldTerms)) :
    Writer.Call σ Unit :=
  fields.forM fun (info, terms) => do let _ ← Writer.writeField info terms

/-- Writes the fields of a dictionary into files and ends it, or else leaves no files of it. -/
def writeDictionary (fields : List (FieldInfo × FieldTerms)) (dir : Path) (createdAt : UInt64)
    (w : Writer Memory) : Doing (Writer Memory) := fun fs =>
  match (writeFields fields).apart (w, fs) with
  | .error e (w, fs) => .error (.of (.error e)) (w.release dir fs)
  | .ok () written =>
    match Writer.closeIn dir createdAt written with
    | .error e (w, fs) => .error ⟨[.closeDictionary], .error e⟩ (w.release dir fs)
    | .ok () (w, fs) => .ok w (w.release dir fs)

/-- Writes a segment into a directory. -/
def build (l : Listing) (dir : Path) (segment : Segment) (sizes : BlockSizes)
    (createdAt : UInt64) : Doing BuildReport := do
  Doing.within .checkSizes (Doing.ofExcept sizes.check)
  Doing.within (.makeDirectory dir) (Doing.onFiles (Files.makeDirs dir))
  let (lists, fields) := l.encode segment
  let w ← Doing.within .createDictionary (Doing.orFail (Writer.create dir segment sizes))
  let w ← writeDictionary fields dir createdAt w
  let path := segment.path dir Segment.postingsExtension
  Doing.within (.writeDocLists path) <| Doing.onFiles <|
    Files.write path (DocLists.stream segment lists)
  return w.report

end Listing

/-- The stream of document lists of a segment in a directory. -/
def DocLists.load (fs : Files) (dir : Path) (segment : Segment) : Except Failure Bytes :=
  let path := segment.path dir Segment.postingsExtension
  match fs.read path with
  | .error fault => .error ⟨[.readDocLists path], .medium fault⟩
  | .ok data =>
    match DocLists.check data path.text segment with
    | .ok () => .ok data
    | .error e => .error (.of (.error e))

/-- Opens the segment with the given name in a directory. -/
def Reader.openSegment (fs : Files) (dir : Path) (name : String) : Except Failure Reader :=
  match Reader.openNamed fs dir name with
  | .ok r => .ok r
  | .error e => .error ⟨[.openSegment name dir], .error e⟩

end Lexicon

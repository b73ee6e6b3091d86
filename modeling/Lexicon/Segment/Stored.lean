import Lexicon.Descriptor
import Lexicon.Files
import Lexicon.Segment.Reader
import Lexicon.Segment.Writer

/-!
# Segments in files

A segment lies in a directory as one file for each stream and its descriptor. `Writer.create` makes
the files of the streams, which stay empty until `Writer.closeIn` ends the segment, fills them and
describes it. `Writer.release` removes the files of a segment that was not ended so.
-/

namespace Lexicon

/-- A computation on files that can fail in any way. -/
abbrev Stored := EStateM Error Files

/-- Makes a fault of a medium an error. -/
def OnFiles.orError {α : Type} (c : OnFiles α) : Stored α := fun fs =>
  match c fs with
  | .ok a fs => .ok a fs
  | .error fault fs => .error (.medium fault) fs

namespace Segment

/-- The path of a file of the segment in a directory. -/
def path (s : Segment) (dir : Path) (extension : String) : Path := dir.join (s.fileName extension)

/-- The paths of the streams of the segment. -/
def streamPaths (s : Segment) (dir : Path) : Streams Path := Streams.extensions.map (s.path dir)

/-- The path of the descriptor of the segment. -/
def descriptorPath (s : Segment) (dir : Path) : Path := s.path dir Segment.descriptorExtension

/-- Removes all files of the segment but its document lists. -/
def discard (s : Segment) (dir : Path) (fs : Files) : Files :=
  let paths := s.streamPaths dir
  [paths.terms, paths.index, paths.directory, s.descriptorPath dir].foldl Files.without fs

/-- Writes a file for each stream. -/
def writeStreams (s : Segment) (dir : Path) (streams : Streams Bytes) : OnFiles Unit := do
  let paths := s.streamPaths dir
  Files.write paths.terms streams.terms
  Files.write paths.index streams.index
  Files.write paths.directory streams.directory

/-- Removes the files of the segment if a computation fails. -/
def orDiscard {α : Type} (s : Segment) (dir : Path) (c : Stored α) : Stored α := fun fs =>
  match c fs with
  | .ok a fs => .ok a fs
  | .error e fs => .error e (s.discard dir fs)

end Segment

namespace Writer

/-- Starts a segment in a directory, which is made if there is none. -/
def create (dir : Path) (segment : Segment) (sizes : BlockSizes) : Stored (Writer Memory) := do
  match sizes.check with
  | .error e => throw e
  | .ok () =>
    OnFiles.orError (Files.makeDirs dir)
    segment.orDiscard dir do
      OnFiles.orError (segment.writeStreams dir ⟨[], [], []⟩)
      match Writer.start segment sizes ⟨{}, {}, {}⟩ with
      | (.ok (), w) => return w
      | (.error e, _) => throw e

/-- What is known of the segment besides its streams. -/
def descriptor {σ : Type} (w : Writer σ) (createdAt : UInt64) : Descriptor :=
  { segment := w.segment, sizes := w.sizes, fields := w.infos
    docCount := UInt32.ofNat w.docCount, createdAt }

/-- Fills the files of the streams and writes the descriptor. -/
def store (w : Writer Memory) (dir : Path) (createdAt : UInt64) : OnFiles Unit := do
  w.segment.writeStreams dir ⟨w.terms.sink.bytes, w.index.sink.bytes, w.directory.sink.bytes⟩
  Files.write (w.segment.descriptorPath dir) (Bytes.ofString (w.descriptor createdAt).toText)

/-- A computation on a segment that is written into files. -/
abbrev Filing := EStateM Error (Writer Memory × Files)

/-- Makes a call on the writer one that leaves the files alone. -/
def Call.apart {α : Type} (c : Call Memory α) : Filing α := fun (w, fs) =>
  match c w with
  | .ok a w => .ok a (w, fs)
  | .error e w => .error e (w, fs)

/-- Ends the segment and its files. A second call does nothing. -/
def closeIn (dir : Path) (createdAt : UInt64) : Filing Unit := do
  -- a failed writer refuses before this is looked at
  let wasClosed := (← get).1.closed
  Call.apart close
  if wasClosed then return
  let (w, fs) ← get
  match w.store dir createdAt fs with
  | .ok () fs => set (w, fs)
  | .error fault fs =>
    set ({ w with failed := true }, fs)
    throw (.medium fault)

/-- Lets go of a segment. Unless it was ended, its files are removed. -/
def release (w : Writer Memory) (dir : Path) (fs : Files) : Files :=
  if w.closed && !w.failed then fs else w.segment.discard dir fs

end Writer

namespace Reader

/-- Makes a fault of files an error. -/
def ofMedium {α : Type} : Except MediumFault α → Except Error α
  | .ok a => .ok a
  | .error fault => .error (.medium fault)

/-- Opens a segment in a directory. -/
def openIn (fs : Files) (dir : Path) (segment : Segment) (infos : List FieldInfo) :
    Except Error Reader := do
  let paths := segment.streamPaths dir
  let terms ← ofMedium (fs.mapped paths.terms)
  let index ← ofMedium (fs.mapped paths.index)
  let directory ← ofMedium (fs.mapped paths.directory)
  Reader.open ⟨terms, index, directory⟩ segment infos

/-- Reads the descriptor with the given name in a directory. -/
def readDescriptor (fs : Files) (dir : Path) (name : String) : Except Error Descriptor := do
  let path := dir.join (name ++ "." ++ Segment.descriptorExtension)
  let data ← ofMedium (fs.read path)
  match Text.Utf8.decode data with
  | .error _ => throw (.medium .notText)
  | .ok text =>
    match Descriptor.ofText text with
    | .ok d => return d
    | .error m => throw (.corrupt (.badDescriptor path.text m.message))

/-- Opens the segment that a descriptor in a directory describes. -/
def openNamed (fs : Files) (dir : Path) (name : String) : Except Error Reader := do
  let d ← readDescriptor fs dir name
  openIn fs dir d.segment d.fields

end Reader

end Lexicon

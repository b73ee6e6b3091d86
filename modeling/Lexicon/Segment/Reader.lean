import Lexicon.Block.Location
import Lexicon.Block.Reader
import Lexicon.Field.Directory
import Lexicon.Monotonic
import Lexicon.Segment.Streams
import Lexicon.Transducer.Format

/-!
# Reading a segment

A segment is opened from its three streams and the descriptors of its fields; all that its streams
say of each other is checked then, and the index of every field is loaded. Blocks are read when a
term is looked up (`FieldReader.seek?`) or when a run is walked (`FieldReader.walk`), which visits
the blocks of the run and all runs below it that can hold the wanted terms.
-/

namespace Lexicon

/-- One field of an open segment. -/
structure FieldReader where
  info : FieldInfo
  summary : FieldSummary
  /-- The index, if the field has terms. -/
  index : Option Transducer
  /-- The stream of blocks. -/
  terms : Bytes

/-- An open segment. -/
structure Reader where
  segment : Segment
  fields : List FieldReader

namespace Reader

/-! ## Opening -/

/-- Checks the footers and the directory: the directory, and the indexes without their footer. -/
def checkStreams (streams : Streams Bytes) (segment : Segment) (infos : List FieldInfo) :
    Except Error (Directory × Bytes) := do
  let names := Streams.names segment
  -- first whether the streams are whole, then what they say
  let directoryEnd ← Frame.checkFooter streams.directory names.directory
  let indexEnd ← Frame.checkFooter streams.index names.index
  let _ ← Frame.checkFooter streams.terms names.terms
  let readDirectory : Read Directory := do
    let _ ← Frame.readHeader (Streams.expectation segment Streams.codecs.directory)
    Directory.read infos
  let (directory, rest) ← readDirectory.run (streams.directory.take directoryEnd)
  unless rest.atEnd do throw (.corrupt (.trailingDirectory names.directory))
  if directory.indexEnd.toNat ≠ streams.index.length then
    throw (.corrupt (.streamSize names.index streams.index.length directory.indexEnd.toNat))
  if directory.termsEnd.toNat ≠ streams.terms.length then
    throw (.corrupt (.streamSize names.terms streams.terms.length directory.termsEnd.toNat))
  let header (codec : String) := Frame.readHeader (Streams.expectation segment codec)
  let _ ← (header Streams.codecs.terms).run streams.terms
  let _ ← (header Streams.codecs.index).run streams.index
  return (directory, streams.index.take indexEnd)

/-- Checks the table of index starts, which the last word of the stream of indexes locates. -/
def checkStarts (index : Bytes) (summaries : List FieldSummary) : Except Error Unit := do
  let table ← (Read.word 8).runAt index (index.length - 8)
  let starts ← (Monotonic.read summaries.length Streams.startsShift).runAt index table
  (summaries.zip starts).forM fun (s, start) =>
    if s.indexStart.toNat ≠ start then
      throw (.corrupt (.indexStart s.number.toNat s.indexStart.toNat start))
    else pure ()

/-- Loads the index of a field. -/
def loadField (terms index : Bytes) (infos : List FieldInfo) (summary : FieldSummary) :
    Except Error FieldReader := do
  match infos.find? (·.number = summary.number) with
  | none => throw (.corrupt (.unknownFieldNumber summary.number.toNat))
  | some info =>
    if summary.hasTerms then
      let t ← Transducer.load.runAt index summary.indexStart.toNat
      if t.emptyOutput ≠ some summary.rootCode then throw (.corrupt (.rootCodeMismatch info.name))
      return ⟨info, summary, some t, terms⟩
    else return ⟨info, summary, none, terms⟩

/-- Opens a segment. -/
def «open» (streams : Streams Bytes) (segment : Segment) (infos : List FieldInfo) :
    Except Error Reader := do
  let (directory, index) ← checkStreams streams segment infos
  checkStarts index directory.fields
  let fields ← directory.fields.mapM (loadField streams.terms index infos)
  return ⟨segment, fields⟩

/-- The field of the given name. -/
def field (r : Reader) (name : String) : Except Error FieldReader :=
  match r.fields.find? (·.info.name = name) with
  | some f => .ok f
  | none => .error (.unknownField name)

end Reader

/-! ## Reading a field -/

/-- The shape of a block that was visited. -/
structure BlockShape where
  fp : Nat
  /-- The prefix of its run. -/
  stem : Bytes
  entries : Nat
  terms : Nat
  isLeaf : Bool
  isFloor : Bool
  isLast : Bool
  compression : Compression
  suffixBytes : Nat
  deriving DecidableEq, Repr

namespace BlockShape

def subBlocks (s : BlockShape) : Nat := s.entries - s.terms

end BlockShape

/-- What is met on a walk, in order. -/
inductive Found where
  | block (shape : BlockShape)
  | term (key : Bytes) (state : TermState)
  deriving Repr

namespace FieldReader

/-- A computation that reads blocks. -/
abbrev Lookup := EStateM Error LongsCodec

/-- The block at an offset. -/
def block (f : FieldReader) (fp : Nat) : Lookup Block :=
  Block.decode f.terms f.info.options.hasFreqs fp

/-- The shape of a block at `fp`. -/
def shape (fp : Nat) (stem : Bytes) (first : Bool) (b : Block) : BlockShape :=
  { fp, stem, entries := b.entries.length
    terms := b.entries.countP fun
      | .term .. => true
      | .block .. => false
    isLeaf := b.isLeaf, isFloor := !first || !b.isLast, isLast := b.isLast
    compression := b.compression, suffixBytes := b.suffixBytes }

/-- What comes of a walk: nothing if it goes too deep. -/
abbrev Walked := Option (EStateM.Result Error LongsCodec (List Found))

/-- Goes on with what a walk met, unless it failed. -/
abbrev Walked.andThen (w : Walked) (next : List Found → LongsCodec → Walked) : Walked :=
  w >>= fun
    | .ok found codec => next found codec
    | .error e codec => some (.error e codec)

/-- Goes through entries of a block whose run has the given prefix. The runs below that can hold
terms which start with `wanted` are walked by `below`. -/
def visit (wanted stem : Bytes) (below : Nat → Bytes → LongsCodec → Walked) :
    List BlockEntry → LongsCodec → Walked
  | [], codec => some (.ok [] codec)
  | .term suffix state :: rest, codec =>
    let key := stem ++ suffix
    (visit wanted stem below rest codec).andThen fun others codec =>
      some (.ok (if wanted.isPrefixOf key then .term key state :: others else others) codec)
  | .block suffix fp :: rest, codec =>
    let child := stem ++ suffix
    if wanted.isPrefixOf child || child.isPrefixOf wanted then
      (below fp child codec).andThen fun found codec =>
        (visit wanted stem below rest codec).andThen fun others codec =>
          some (.ok (found ++ others) codec)
    else visit wanted stem below rest codec

/-- Walks the blocks of a run from the one at `fp` on, `first` being whether it is the first, and
the runs below that can hold terms which start with `wanted`. The walk is given up when so many
calls are open. -/
def walkWithin (f : FieldReader) (wanted : Bytes) :
    Nat → Bool → Nat → Bytes → LongsCodec → Walked
  | 0, _, _, _, _ => none
  | calls + 1, first, fp, stem, codec =>
    match f.block fp codec with
    | .error e codec => some (.error e codec)
    | .ok b codec =>
      -- the runs below come before the next block of this one
      (visit wanted stem (f.walkWithin wanted calls true) b.entries codec).andThen
        fun inside codec =>
          if b.isLast then some (.ok (.block (shape fp stem first b) :: inside) codec)
          else (f.walkWithin wanted calls false b.stop stem codec).andThen fun after codec =>
            some (.ok (.block (shape fp stem first b) :: inside ++ after) codec)

/-- How many calls of a walk can be open: more than any memory has room for, and more than there are
places in the stream. -/
def deepest (f : FieldReader) : Nat := 2 ^ 62 + f.terms.length

/-- Walks a run and what is below it. Blocks may lead back to one whose walk is not over yet, and
then there is no end. -/
def walk (f : FieldReader) (wanted : Bytes) : Bool → Nat → Bytes → LongsCodec → Walked :=
  f.walkWithin wanted f.deepest

/-- The walk as a lookup. No answer comes of a walk that goes too deep; the error stands for that,
and nothing reports it. -/
def settled (w : LongsCodec → Walked) : Lookup (List Found) := fun codec =>
  (w codec).getD (.error (.corrupt .endlessWalk) codec)

/-- Where the blocks are that an index code names. -/
def located (code : Option (Nat × Bytes)) : Except Error (Nat × Location) := do
  match code with
  | none => throw (.corrupt .noIndexRoot)
  | some (length, code) => return (length, ← Location.decode code)

/-- Makes an error of a computation that reads no block one of the lookup. -/
def lift {α : Type} : Except Error α → Lookup α
  | .ok a => pure a
  | .error e => throw e

/-- The terms that start with `wanted`, in order. -/
def startingWith (f : FieldReader) (wanted : Bytes) : Lookup (List (Bytes × TermState)) := do
  match f.index with
  | none => return []
  | some t =>
    set ({} : LongsCodec)
    let (length, location) ← lift (t.longest? wanted >>= located)
    let found ← settled (f.walk wanted true location.fp (wanted.take length))
    return found.filterMap fun
      | .term key state => some (key, state)
      | .block _ => none

/-- All terms, in order. -/
def allTerms (f : FieldReader) : Lookup (List (Bytes × TermState)) := f.startingWith []

/-- The state of the term among the entries of a block. -/
def findTerm (suffix : Bytes) : List BlockEntry → Option TermState
  | [] => none
  | .term s state :: rest => if s = suffix then some state else findTerm suffix rest
  | .block .. :: rest => findTerm suffix rest

/-- The state of a term, if the field has it. At most one block is read. -/
def seek? (f : FieldReader) (term : Bytes) : Lookup (Option TermState) := do
  match f.index with
  | none => return none
  | some t =>
    set ({} : LongsCodec)
    let (length, location) ← lift (t.longest? term >>= located)
    let (fp, hasTerms) := location.select term[length]?
    -- a block of sub-blocks only is not even read
    if !hasTerms then return none
    let b ← f.block fp
    return findTerm (term.drop length) b.entries

/-- The shapes of all blocks, in the order of the walk from the root. -/
def blockShapes (f : FieldReader) : Lookup (List BlockShape) := do
  match f.index with
  | none => return []
  | some _ =>
    set ({} : LongsCodec)
    let location ← lift (Location.decode f.summary.rootCode)
    let found ← settled (f.walk [] true location.fp [])
    return found.filterMap fun
      | .block s => some s
      | .term .. => none

end FieldReader

end Lexicon

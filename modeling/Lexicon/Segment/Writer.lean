import Lexicon.Block.Frontier
import Lexicon.Field.Directory
import Lexicon.Monotonic
import Lexicon.Segment.Streams
import Lexicon.Transducer.Format

/-!
# Writing a segment

A `Writer` holds the three streams of a dictionary while it is written, field after field in the
order of their numbers. A `FieldWriter` holds what is known of the one field that is open; a field
that is never finished is not in the directory. `Writer.close` ends the streams.

Calls that come at the wrong time or with the wrong data are refused and change nothing. Once a
stream has failed, what was written is not whole, and every later call is refused.
-/

namespace Lexicon

/-- A row of document numbers with repetitions. -/
abbrev DocList := List UInt32

/-- Number of distinct documents. -/
def DocList.distinct (docs : DocList) : Nat := docs.eraseDups.length

/-- A segment that is being written to sinks. -/
structure Writer (σ : Type) where
  segment : Segment
  sizes : BlockSizes
  terms : Output σ
  index : Output σ
  directory : Output σ
  codec : LongsCodec := {}
  /-- The summaries of the finished fields. -/
  summaries : List FieldSummary := []
  /-- The documents of the finished fields. -/
  docs : DocList := []
  /-- The fields that were opened. -/
  infos : List FieldInfo := []
  closed : Bool := false
  /-- Whether a stream has failed. -/
  failed : Bool := false

/-- The field that is being written. -/
structure FieldWriter where
  info : FieldInfo
  frontier : Frontier := {}
  /-- Number of terms. -/
  terms : UInt64 := 0
  sumDocFreq : UInt64 := 0
  sumTotalFreq : UInt64 := 0
  minTerm : Option Bytes := none
  docs : DocList := []

namespace Writer

variable {σ : Type} [Sink σ]

/-- A call on a segment writer. -/
abbrev Call (σ : Type) := EStateM Error (Writer σ)

def onTerms {α : Type} (w : Write σ α) : Call σ α := fun s =>
  match w s.terms with
  | .ok a terms => .ok a { s with terms }
  | .error e terms => .error e { s with terms }

def onIndex {α : Type} (w : Write σ α) : Call σ α := fun s =>
  match w s.index with
  | .ok a index => .ok a { s with index }
  | .error e index => .error e { s with index }

def onDirectory {α : Type} (w : Write σ α) : Call σ α := fun s =>
  match w s.directory with
  | .ok a directory => .ok a { s with directory }
  | .error e directory => .error e { s with directory }

/-- Notes that the streams are no longer whole if a call fails. -/
def orFail {α : Type} (c : Call σ α) : Call σ α := fun s =>
  match c s with
  | .ok a s => .ok a s
  | .error e s => .error e { s with failed := true }

/-- Refuses a call after a failure. -/
def ensureSound : Call σ Unit := do
  if (← get).failed then throw .failed

/-- Starts a segment: writes the headers of its streams. The sinks are given back in any case. -/
def start (segment : Segment) (sizes : BlockSizes) (sinks : Streams σ) :
    Except Error Unit × Writer σ :=
  let names := Streams.names segment
  let writer : Writer σ :=
    { segment, sizes
      terms := ⟨names.terms, sinks.terms, {}⟩
      index := ⟨names.index, sinks.index, {}⟩
      directory := ⟨names.directory, sinks.directory, {}⟩ }
  let headers : Call σ Unit := do
    match sizes.check with
    | .ok () => pure ()
    | .error e => throw e
    onTerms (Output.items (Streams.header segment Streams.codecs.terms))
    onIndex (Output.items (Streams.header segment Streams.codecs.index))
    onDirectory (Output.items (Streams.header segment Streams.codecs.directory))
  match headers writer with
  | .ok () w => (.ok (), w)
  | .error e w => (.error e, w)

/-- Number of distinct documents of the finished fields. -/
def docCount (w : Writer σ) : Nat := w.docs.distinct

/-- Opens a field, whose number has to be above that of every field before it. -/
def openField (info : FieldInfo) : Call σ FieldWriter := do
  ensureSound
  let w ← get
  if w.closed then throw .closed
  match (w.infos.getLast?.map (·.number)).filter (info.number ≤ ·) with
  | some previous => throw (.fieldOutOfOrder info.number.toNat previous.toNat)
  | none =>
    -- a field begins without a term before it, whatever the field before ended with
    set { w with infos := w.infos ++ [info], codec := {} }
    return { info }

/-- Writes blocks to the stream of blocks. -/
def emit {α : Type} (e : Emit α) : Call σ α := do
  let w ← get
  match e ⟨w.terms.position, w.codec, []⟩ with
  | .error e _ => throw e
  | .ok a out =>
    onTerms (Output.items out.items)
    modify fun w => { w with codec := out.codec }
    return a

end Writer

namespace FieldWriter

variable {σ : Type} [Sink σ]

/-- Notes documents that hold a term of the field. -/
def record (f : FieldWriter) (docs : DocList) : FieldWriter := { f with docs := f.docs ++ docs }

/-- Takes the next term, which has to sort after the one before. -/
def write (f : FieldWriter) (term : Bytes) (state : TermState) : Writer.Call σ FieldWriter := do
  Writer.ensureSound
  if 0 < f.terms ∧ ¬ f.frontier.last < term then
    throw (.termOutOfOrder f.info.name term f.frontier.last)
  let hasFreqs := f.info.options.hasFreqs
  let state := state.normalized hasFreqs
  match state.check hasFreqs with
  | .error e => throw e
  | .ok () =>
    let w ← get
    -- what is refused up to here changes nothing; a failure from here on leaves streams that are
    -- not whole
    let frontier ← Writer.orFail (Writer.emit (f.frontier.push w.sizes hasFreqs term state))
    return { f with frontier, terms := f.terms + 1
                    sumDocFreq := f.sumDocFreq + state.docFreq.toUInt64
                    sumTotalFreq := f.sumTotalFreq + state.totalFreq
                    minTerm := some (f.minTerm.getD term) }

/-- Writes what is pending of the field and its index; the summary of the field. -/
def complete (f : FieldWriter) : Writer.Call σ FieldSummary := do
  let hasFreqs := f.info.options.hasFreqs
  let w ← get
  if f.terms = 0 then
    return .empty f.info.number hasFreqs (UInt64.ofNat w.index.position)
  let root ← Writer.emit (f.frontier.close w.sizes hasFreqs)
  match root.index.emptyOutput with
  | none => throw (.transducer .noRootOutput)
  | some rootCode =>
    let indexStart := UInt64.ofNat w.index.position
    Writer.onIndex (Output.items root.index.saveItems)
    return { number := f.info.number, terms := f.terms, rootCode
             sumTotalFreq := if hasFreqs then some f.sumTotalFreq else none
             sumDocFreq := f.sumDocFreq, docCount := UInt32.ofNat f.docs.distinct
             minTerm := f.minTerm.getD [], maxTerm := f.frontier.last, indexStart }

/-- Finishes the field: from then on it is in the directory. -/
def finish (f : FieldWriter) : Writer.Call σ FieldSummary := do
  Writer.ensureSound
  let summary ← Writer.orFail f.complete
  modify fun w => { w with docs := w.docs ++ f.docs, summaries := w.summaries ++ [summary] }
  return summary

/-- Takes terms in order, each with the documents that hold it. -/
def writeAll (f : FieldWriter) : List (Bytes × TermState × DocList) → Writer.Call σ FieldWriter
  | [] => pure f
  | (term, state, docs) :: rest => do
    let f ← f.write term state
    (f.record docs).writeAll rest

end FieldWriter

namespace Writer

variable {σ : Type} [Sink σ]

/-- Writes a whole field. -/
def writeField (info : FieldInfo) (terms : List (Bytes × TermState × DocList)) :
    Call σ FieldSummary := do
  let f ← openField info
  let f ← f.writeAll terms
  f.finish

/-- The bytes of the table of index starts. -/
def startsTable (summaries : List FieldSummary) : Except Error Bytes := do
  let b ← Monotonic.Builder.new Streams.startsShift
  let b ← summaries.foldlM (fun b s => b.add s.indexStart.toNat) b
  return b.finish

/-- Ends the streams: the table of index starts, the directory and the footers. -/
def writeTrailers : Call σ Unit := do
  let w ← get
  match startsTable w.summaries with
  | .error e => throw e
  | .ok table =>
    onIndex (Output.items [.bytes table, .u64 (UInt64.ofNat w.index.position)])
    onIndex Frame.writeFooter
    onTerms Frame.writeFooter
    -- the ends that the directory names are behind the footers
    let w ← get
    let directory : Directory :=
      ⟨w.summaries, UInt64.ofNat w.index.position, UInt64.ofNat w.terms.position⟩
    onDirectory (Output.items directory.items)
    onDirectory Frame.writeFooter
    onTerms Output.flush
    onIndex Output.flush
    onDirectory Output.flush

/-- Ends the segment. A second call does nothing. -/
def close : Call σ Unit := do
  ensureSound
  if (← get).closed then return
  -- closed whatever becomes of the trailers: a failed close is not tried again
  modify fun w => { w with closed := true }
  orFail writeTrailers

/-- Ends the segment and gives its sinks. -/
def intoStreams : Call σ (Streams σ) := do
  close
  let w ← get
  return ⟨w.terms.sink, w.index.sink, w.directory.sink⟩

end Writer

end Lexicon

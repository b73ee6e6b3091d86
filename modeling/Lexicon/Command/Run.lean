import Lexicon.Command.Basic
import Lexicon.Report
import Lexicon.Text.Shown
import Lexicon.Text.Styled

/-!
# Running commands

What a command prints and what it leaves in the files. `Invocation.run` is all that a command does;
what time it is it is told.
-/

namespace Lexicon

/-- What a command prints and whether it succeeded. -/
structure Outcome where
  /-- Zero for success. -/
  code : Nat := 0
  stdout : String := ""
  stderr : String := ""
  deriving DecidableEq, Repr

/-- An identity for a segment that is named and written at a time, told in nanoseconds. -/
def SegmentId.stamped (name : String) (now : Nat) : SegmentId :=
  let text := Bytes.ofString name
  let time := Bytes.littleEndian 16 now
  let word (data : Bytes) := Bytes.littleEndian 8 (checksum data).toNat
  ⟨word (text ++ time) ++ word (time ++ text), by
    simp only [word, List.length_append, Bytes.length_littleEndian]⟩

/-! ## Failures -/

namespace Failure

/-- A text whose further lines stand under its first one. -/
def indented (first further text : String) : String :=
  first ++ ("\n" ++ further).intercalate (text.splitOn "\n") ++ "\n"

/-- The start of the line of a numbered cause. -/
def numbered (i : Nat) : String :=
  let number := toString i
  String.ofList (List.replicate (5 - number.length) ' ') ++ number ++ ": "

/-- The lines for the causes of a failure, numbered if there are several. -/
def causeLines : List String → String
  | [] => ""
  | [cause] => "\nCaused by:\n" ++ indented "    " "    " cause
  | causes =>
    "\nCaused by:\n" ++ String.join (causes.zipIdx.map fun (cause, i) =>
      indented (numbered i) "       " cause)

/-- What is printed of a failure. -/
def report (f : Failure) : String :=
  match f.messages with
  | [] => "Error: \n"
  | first :: causes => s!"Error: {first}\n" ++ causeLines causes

/-- The code with which a program ends that fails. -/
def code (f : Failure) : Nat := if f.cause.breaksOff then 101 else 1

end Failure

/-! ## What is printed -/

/-- The numbers of a term. -/
def TermState.span (s : TermState) : Text.Span :=
  ⟨s!"df={s.docFreq} ttf={s.totalFreq}", some { color := .cyan }⟩

/-- What is printed for a term that was looked up; with its documents if it was found. -/
def lookupSpans (field : String) (term : Bytes) :
    Option (TermState × List (UInt32 × UInt32)) → List Text.Span
  | none =>
    [⟨field, some { color := .magenta, bold := true }⟩, { text := ":" },
      ⟨s!"{Text.shown term} not found\n", some { color := .red }⟩]
  | some (state, docs) =>
    [⟨field, some { color := .magenta, bold := true }⟩, { text := ":" },
      ⟨Text.shown term, some { color := .green, bold := true }⟩, { text := " " }, state.span,
      { text := "\n" }]
    ++ docs.map fun (doc, freq) =>
      { text := if freq = 1 then s!"  {doc}\n" else s!"  {doc} (x{freq})\n" }

/-- What is printed for a list of terms. -/
def termSpans (terms : List (Bytes × TermState)) : List Text.Span :=
  terms.flatMap fun (term, state) =>
    [⟨Text.shown term, some { color := .green }⟩, { text := "\t" }, state.span, { text := "\n" }]

/-! ## Building -/

namespace BuildRequest

/-- The block sizes: those of the file, if one is named, with those of the request in their place.
-/
def sizes (r : BuildRequest) (fs : Files) : Except Failure BlockSizes := do
  let given : BlockSizes ← match r.config with
    | none => pure {}
    | some path =>
      match fs.read path with
      | .error fault => throw ⟨[.readSizes path], .medium fault⟩
      | .ok data =>
        match Text.Utf8.decode data with
        | .error _ => throw ⟨[.readSizes path], .medium .notText⟩
        | .ok text =>
          match BlockSizes.ofText text with
          | .error misread => throw ⟨[.parseSizes path], .json misread⟩
          | .ok sizes => pure sizes
  let sizes : BlockSizes := ⟨r.minBlock.getD given.min, r.maxBlock.getD given.max⟩
  match sizes.check with
  | .ok () => return sizes
  | .error e => throw ⟨[.checkSizes], .error e⟩

/-- The listing. -/
def read (r : BuildRequest) (fs : Files) : Except Failure Listing :=
  match fs.read r.listing with
  | .error fault => .error ⟨[.readListing r.listing], .medium fault⟩
  | .ok data =>
    match Listing.parse data with
    | .error fault => .error ⟨[.parseListing r.listing], .listing fault⟩
    | .ok l => .ok l

/-- What is told of a listing that was read. -/
def readLine (l : Listing) : String :=
  s!"Read {l.lines} lines: {l.fields.size} fields, {l.terms} distinct terms\n"

/-- What is told of a segment that was written. -/
def writtenLine (r : BuildRequest) (b : BuildReport) : String :=
  s!"Segment {b.segment.name} written to {r.place.dir.text} "
    ++ s!"({b.fields} fields, {b.terms} terms, {b.docs} documents)\n"

/-- Builds a segment. What was told before a failure stays told. -/
def run (r : BuildRequest) (now : Nat) (fs : Files) : Outcome × Files :=
  let tell (s : String) := if r.quiet then "" else s
  let prepared : Except Failure (BlockSizes × Listing) := do
    let sizes ← r.sizes fs
    return (sizes, ← r.read fs)
  match prepared with
  | .error f => ({ code := f.code, stderr := f.report }, fs)
  | .ok (sizes, l) =>
    let segment : Segment :=
      { name := r.place.segment, id := .stamped r.place.segment now }
    match l.build r.place.dir segment sizes (UInt64.ofNat (now / 10 ^ 9)) fs with
    | .error f fs => ({ code := f.code, stdout := tell (readLine l), stderr := f.report }, fs)
    | .ok b fs => ({ stdout := tell (readLine l ++ r.writtenLine b) }, fs)

end BuildRequest

/-! ## Looking into a segment -/

/-- A result, or a failure for an error. -/
def orFailure {α : Type} : Except Error α → Except Failure α
  | .ok a => .ok a
  | .error e => .error (.of (.error e))

/-- The value of a computation that reads blocks. -/
def FieldReader.Lookup.value {α : Type} (l : FieldReader.Lookup α) : Except Failure α :=
  match l {} with
  | .ok a _ => .ok a
  | .error e _ => .error (.of (.error e))

namespace Place

/-- A term with its documents, if the field has it. -/
def lookup (p : Place) (fs : Files) (field : String) (term : Bytes) :
    Except Failure (Option (TermState × List (UInt32 × UInt32))) := do
  let r ← Reader.openSegment fs p.dir p.segment
  let f ← orFailure (r.field field)
  match ← (f.seek? term).value with
  | none => return none
  | some state =>
    let lists ← DocLists.load fs p.dir r.segment
    match state.longs with
    | [] => throw (.of .noDocList)
    | offset :: _ =>
      let docs ← orFailure (DocLists.readAt lists offset.toNat f.info.options.hasFreqs)
      return some (state, docs)

/-- The terms of a field that start with a text. -/
def terms (p : Place) (fs : Files) (field start : String) :
    Except Failure (List (Bytes × TermState)) := do
  let r ← Reader.openSegment fs p.dir p.segment
  let f ← orFailure (r.field field)
  (f.startingWith (Bytes.ofString start)).value

end Place

namespace Invocation

/-- What a command that changes no file comes to. -/
def look (styled : Bool) (fs : Files) : Command → Except Failure Outcome
  | .build _ => .ok {}
  | .stats place json => do
    let r ← SegmentReport.gather fs place.dir place.segment
    let lines := if json then [r.toJson.toText] else r.lines place.dir
    return { stdout := String.join (lines.map (· ++ "\n")) }
  | .lookup place field term => do
    let found ← place.lookup fs field (Bytes.ofString term)
    return { code := if found.isSome then 0 else 1
             stdout := Text.Span.renderAll styled (lookupSpans field (Bytes.ofString term) found) }
  | .dump place field start => do
    let terms ← place.terms fs field start
    return { stdout := Text.Span.renderAll styled (termSpans terms) }

/-- Runs a command at a time, told in nanoseconds. -/
def run (i : Invocation) (now : Nat) (fs : Files) : Outcome × Files :=
  match i.command with
  | .build request => request.run now fs
  | command =>
    match look i.styled fs command with
    | .ok outcome => (outcome, fs)
    | .error f => ({ code := f.code, stderr := f.report }, fs)

end Invocation

end Lexicon

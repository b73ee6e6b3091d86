import Lexicon.Proofs.Segment.Replay

/-!
# Streams cannot be mixed up

What a session gives of a segment is three streams that were ended (`Frame.framed`), each behind a
header that names its kind and its segment (`Written.bears`). So no reader opens streams of which
one stands for another kind of stream, or which are of more than one segment.

> **`Streams.tell_apart`** — headers and footers are accepted just where they are in order; streams
> that were mixed or exchanged are not opened, whatever segment is expected.

A header is written first and nothing before it is ever changed, so all that is needed of the calls
of a session is that they add to the streams (`Writer.Extends`).
-/

namespace Lexicon

/-! ## What is added to streams -/

namespace Output

/-- Whatever the first output holds, the second holds as well, and perhaps more behind it. -/
def Extends (out out' : Output Memory) : Prop :=
  ∀ bs, out.Holds bs → ∃ more, out'.Holds (bs ++ more)

/-- An output that is left alone has been extended by nothing. -/
theorem Extends.refl (out : Output Memory) : out.Extends out :=
  fun bs h => ⟨[], (List.append_nil bs).symm ▸ h⟩

/-- What extends an extension extends what it extends. -/
theorem Extends.trans {out out' out'' : Output Memory} (h : out.Extends out')
    (h' : out'.Extends out'') : out.Extends out'' := by
  intro bs hbs
  obtain ⟨more, hmore⟩ := h bs hbs
  obtain ⟨more', hmore'⟩ := h' _ hmore
  exact ⟨more ++ more', List.append_assoc bs more more' ▸ hmore'⟩

/-- Items that are written extend the output. -/
theorem extends_of_items {out out' : Output Memory} {items' : List Item}
    (h : items items' out = .ok () out') : out.Extends out' := by
  intro bs hbs
  obtain ⟨written, hwritten, hholds⟩ := items_spec hbs items'
  cases hwritten.symm.trans h
  exact ⟨_, hholds⟩

end Output

/-- All streams of the second writer extend those of the first, and neither or both are closed. -/
structure Writer.Extends (w w' : Writer Memory) : Prop where
  closed : w'.closed = w.closed
  terms : w.terms.Extends w'.terms
  index : w.index.Extends w'.index
  directory : w.directory.Extends w'.directory

theorem Writer.Extends.refl (w : Writer Memory) : w.Extends w := ⟨rfl, .refl _, .refl _, .refl _⟩

theorem Writer.Extends.trans {w w' w'' : Writer Memory} (h : w.Extends w') (h' : w'.Extends w'') :
    w.Extends w'' :=
  ⟨h'.closed.trans h.closed, h.terms.trans h'.terms, h.index.trans h'.index,
    h.directory.trans h'.directory⟩

namespace FieldWriter

variable {f f' : FieldWriter} {w w' : Writer Memory}

/-- A term that is taken extends the streams. -/
theorem extends_write {term : Bytes} {state : TermState} (h : f.write term state w = .ok f' w') :
    w.Extends w' := by
  obtain ⟨-, items, terms, codec, hterms, rfl⟩ := write_ok_cases h
  exact ⟨rfl, Output.extends_of_items hterms, .refl _, .refl _⟩

theorem extends_finish {summary : FieldSummary} (h : f.finish w = .ok summary w') :
    w.Extends w' := by
  obtain ⟨-, blocks, indexItems, terms, index, codec, hterms, hindex, rfl⟩ := finish_ok_cases h
  exact ⟨rfl, Output.extends_of_items hterms, Output.extends_of_items hindex, .refl _⟩

theorem extends_run (steps : List FieldStep) : ∀ {f f' : FieldWriter} {w w' : Writer Memory},
    f.run steps w = .ok f' w' → w.Extends w' := by
  induction steps with
  | nil =>
    intro f f' w w' h
    cases h
    exact .refl w
  | cons step steps ih =>
    intro f f' w w' h
    cases step with
    | write term state =>
      obtain ⟨f₁, w₁, hwrite, hrest⟩ := exists_of_bind_ok h
      exact (extends_write hwrite).trans (ih hrest)
    | record docs => exact ih (f := f.record docs) h

end FieldWriter

theorem FieldScript.extends_run {s : FieldScript} {w w' : Writer Memory}
    (h : s.run w = .ok () w') : w.Extends w' := by
  obtain ⟨f₀, w₁, hopen, hrun⟩ := exists_of_bind_ok h
  obtain ⟨f, w₂, hsteps, hend⟩ := exists_of_bind_ok hrun
  obtain ⟨-, -, rfl⟩ := Writer.openField_ok_cases hopen
  have hopened : w.Extends { w with infos := w.infos ++ [s.info], codec := {} } :=
    ⟨rfl, .refl _, .refl _, .refl _⟩
  refine (hopened.trans (FieldWriter.extends_run s.steps hsteps)).trans ?_
  split at hend
  next =>
    obtain ⟨summary, w₃, hfinish, hdone⟩ := exists_of_bind_ok hend
    cases hdone
    exact FieldWriter.extends_finish hfinish
  next =>
    cases hend
    exact .refl _

/-- **Writing fields adds to the streams.** -/
theorem Writer.extends_runAll (scripts : List FieldScript) : ∀ {w w' : Writer Memory},
    runAll scripts w = .ok () w' → w.Extends w' := by
  induction scripts with
  | nil =>
    intro w w' h
    cases h
    exact .refl w
  | cons s scripts ih =>
    intro w w' h
    obtain ⟨_, w₁, hs, hrest⟩ := exists_of_bind_ok h
    exact (FieldScript.extends_run hs).trans (ih hrest)

/-! ## The streams of a segment -/

/-- The streams that a session gave of a segment, over any sinks that were empty before. -/
inductive Written (segment : Segment) : Streams Bytes → Prop
  | given {σ : Type} [Sink σ] {content : σ → Bytes} {sizes : BlockSizes} {sinks given : Streams σ}
      {w : Writer σ} {requests : List Request} (readable : Sink.Readable content)
      (empty : sinks.map content = ⟨[], [], []⟩)
      (start : Writer.start segment sizes sinks = (.ok (), w))
      (gives : ∃ x ∈ (Session.idle w).history requests, x.reply = .ok (.sinks given)) :
      Written segment (given.map content)

/-- The stream was ended, and begins with the header of this kind of stream of the segment. -/
def Bears (segment : Segment) (codec : String) (data : Bytes) : Prop :=
  ∃ more, data = Frame.framed (headerBytes segment codec ++ more)

/-- A stream that was started with a header, and finished, bears this header. -/
theorem bears_of_finished {segment : Segment} {codec : String} {start out ended : Output Memory}
    (hstart : start.Holds (headerBytes segment codec)) (hextends : start.Extends out)
    (hended : Writer.Finished out ended) : Bears segment codec ended.sink.bytes := by
  obtain ⟨more, hmore⟩ := hextends _ hstart
  obtain ⟨last, hlast⟩ := hended.holds hmore
  exact ⟨more ++ last, by rw [hlast.bytes, List.append_assoc]⟩

/-- **The streams of a segment bear its name.** -/
theorem Written.bears {segment : Segment} {s : Streams Bytes} (h : Written segment s) :
    Bears segment Streams.codecs.terms s.terms ∧ Bears segment Streams.codecs.index s.index ∧
      Bears segment Streams.codecs.directory s.directory := by
  obtain @⟨σ, _, content, sizes, sinks, given, w, requests, hreadable, hempty, hstart, hgiven⟩ := h
  obtain ⟨htally, -, -⟩ := Writer.tally_start hstart
  obtain ⟨w₁, w₂, hrun, hclose, -, rfl⟩ := Session.ended_of_given htally hgiven
  -- the same is done over sinks in memory
  have hstart' := Writer.start_inMemory hreadable hempty hstart
  have hrun' := Writer.copies_runAll hreadable _ hrun
  have hclose' := Writer.copies_close hreadable hclose
  obtain ⟨w₀, hstart₀, hhas⟩ := Writer.start_spec segment (Writer.exists_of_start hstart).1
  cases hstart₀.symm.trans hstart'
  obtain ⟨hunclosed, hterms, hindex, hdirectory⟩ := Writer.extends_runAll _ hrun'
  obtain ⟨-, -, -, ⟨hclosed, -⟩ | ⟨terms, index, directory, hterms', hindex', hdirectory', hw₂⟩⟩ :=
    Writer.close_ok hclose'
  · rw [hunclosed, hhas.holds.unclosed] at hclosed
    cases hclosed
  · show Bears segment _ (w₂.inMemory content).terms.sink.bytes ∧
      Bears segment _ (w₂.inMemory content).index.sink.bytes ∧
      Bears segment _ (w₂.inMemory content).directory.sink.bytes
    rw [hw₂]
    exact ⟨bears_of_finished hhas.holds.terms hterms hterms',
      bears_of_finished hhas.holds.index hindex hindex',
      bears_of_finished hhas.holds.directory hdirectory hdirectory'⟩

/-! ## What a reader opens -/

namespace Streams

variable {α : Type}

def toList (s : Streams α) : List α := [s.terms, s.index, s.directory]

/-- Each stream of the first where it is said so, and else of the second. -/
def mix (first : Streams Bool) (a b : Streams α) : Streams α :=
  ⟨bif first.terms then a.terms else b.terms, bif first.index then a.index else b.index,
    bif first.directory then a.directory else b.directory⟩

/-- The streams with two of them exchanged. -/
def exchanges (s : Streams α) : List (Streams α) :=
  [⟨s.index, s.terms, s.directory⟩, ⟨s.directory, s.index, s.terms⟩,
    ⟨s.terms, s.directory, s.index⟩]

end Streams

/-- The suffix has a length that a header can hold. -/
def Segment.Short (s : Segment) : Prop := (Bytes.ofString s.suffix).length < 2 ^ 32

/-- Two segments are not the same: their identifiers differ, or their suffixes do. -/
def Segment.Apart (a b : Segment) : Prop :=
  a.id ≠ b.id ∨ a.suffix ≠ b.suffix ∧ a.Short ∧ b.Short

/-- Identifiers with the same bytes are the same. -/
theorem SegmentId.bytes_inj {a b : SegmentId} (h : a.bytes = b.bytes) : a = b := by
  cases a
  cases b
  cases h
  rfl

/-- The segment cannot be told from the expected one. -/
def Segment.Agrees (segment expected : Segment) : Prop :=
  segment.id = expected.id ∧ (segment.Short → segment.suffix = expected.suffix)

/-- Two segments that agree with the same one are not apart. -/
theorem Segment.Agrees.not_apart {a b expected : Segment} (ha : a.Agrees expected)
    (hb : b.Agrees expected) : ¬ a.Apart b := by
  rintro (hid | ⟨hsuffix, hshort, hshort'⟩)
  · exact hid (ha.1.trans hb.1.symm)
  · exact hsuffix ((ha.2 hshort).trans (hb.2 hshort').symm)

/-- A stream that bears some name bears the expected one: its codec, and its segment as far as it
can be told. -/
def Confirms (expected : Segment) (codec : String) (data : Bytes) : Prop :=
  ∀ segment codec', codec' ∈ Streams.codecs.toList → Bears segment codec' data →
    codec' = codec ∧ segment.Agrees expected

namespace Reader

variable {expected : Segment} {codec : String} {data : Bytes}

/-- A header that is accepted in front of any bytes. -/
theorem agrees_of_readHeader {segment : Segment} {codec' : String} {rest : Bytes} {position v : Nat}
    {c : Cursor} (hcodec : codec' ∈ Streams.codecs.toList)
    (h : Frame.readHeader (Streams.expectation expected codec)
      ⟨position, headerBytes segment codec' ++ rest⟩ = .ok v c) :
    codec' = codec ∧ segment.Agrees expected := by
  have hshort : ∀ codec ∈ Streams.codecs.toList, (Bytes.ofString codec).length < 2 ^ 32 := by
    decide +kernel
  obtain ⟨hcodec, hid, hmeets⟩ :=
    Frame.of_readHeader_ok h (hshort codec' hcodec) segment.id.length_eq
  exact ⟨hcodec.symm, (SegmentId.bytes_inj hid).symm,
    fun hsuffix => (hmeets hsuffix).suffix_eq.symm⟩

/-- A header that is accepted in front of a part of a stream that has all but the footer. -/
theorem confirms_of_readHeader {start : Bytes} {v : Nat} {c : Cursor}
    (hstart : ∀ body, data = Frame.framed body → ∃ tail, start = body ++ tail)
    (h : Frame.readHeader (Streams.expectation expected codec) (Cursor.start start) = .ok v c) :
    Confirms expected codec data := by
  rintro segment codec' hcodec ⟨more, hdata⟩
  obtain ⟨tail, rfl⟩ := hstart _ hdata
  rw [List.append_assoc] at h
  exact agrees_of_readHeader hcodec h

/-- A header that is read confirms what was expected of it. -/
theorem confirms_of_run {x : Nat × Cursor}
    (h : (Frame.readHeader (Streams.expectation expected codec)).run data = .ok x) :
    Confirms expected codec data :=
  confirms_of_readHeader (fun body hdata => hdata ▸ Frame.framed_eq body) (Read.of_run_eq_ok h)

/-- **What is opened bears the expected names.** -/
theorem confirms_of_open {streams : Streams Bytes} {infos : List FieldInfo} {r : Reader}
    (h : Reader.open streams expected infos = .ok r) :
    Confirms expected Streams.codecs.terms streams.terms ∧
      Confirms expected Streams.codecs.index streams.index ∧
      Confirms expected Streams.codecs.directory streams.directory := by
  rw [Reader.open] at h
  obtain ⟨_, hstreams, -⟩ := of_bind_eq_ok h
  rw [checkStreams] at hstreams
  obtain ⟨directoryEnd, hfooter, hfooters⟩ := of_bind_eq_ok hstreams
  obtain ⟨_, -, hfooters⟩ := of_bind_eq_ok hfooters
  obtain ⟨_, -, hheaders⟩ := of_bind_eq_ok hfooters
  obtain ⟨_, hdirectory, hheaders⟩ := of_bind_eq_ok hheaders
  dsimp only at hheaders
  split at hheaders
  case isFalse => cases hheaders
  case isTrue =>
  split at hheaders
  case isTrue => cases hheaders
  case isFalse =>
  split at hheaders
  case isTrue => cases hheaders
  case isFalse =>
  obtain ⟨_, hterms, hheaders⟩ := of_bind_eq_ok hheaders
  obtain ⟨_, hindex, -⟩ := of_bind_eq_ok hheaders
  refine ⟨confirms_of_run hterms, confirms_of_run hindex, ?_⟩
  -- the directory is read without its footer
  obtain ⟨_, _, hheader, -⟩ := exists_of_bind_ok (Read.of_run_eq_ok hdirectory)
  refine confirms_of_readHeader (fun body hdata => ⟨[], ?_⟩) hheader
  rw [hdata, Frame.checkFooter_framed] at hfooter
  rw [hdata, ← Except.ok.inj hfooter, Frame.take_framed, List.append_nil]

end Reader

namespace Streams

variable {one other expected : Segment} {a b s : Streams Bytes} {infos : List FieldInfo}

/-- A stream that is taken from one of two segments tells from which. -/
theorem agrees_of_choice {codec : String} {x y : Bytes} {choice : Bool}
    (h : Confirms expected codec (bif choice then x else y)) (hcodec : codec ∈ codecs.toList)
    (hx : Bears one codec x) (hy : Bears other codec y) :
    (bif choice then one else other).Agrees expected := by
  cases choice with
  | true => exact (h one codec hcodec hx).2
  | false => exact (h other codec hcodec hy).2

/-- **Streams of two segments are not opened together**, whatever segment is expected. -/
theorem open_mix (ha : Written one a) (hb : Written other b) (happart : one.Apart other)
    {first : Streams Bool} (hfirst : true ∈ first.toList) (hsecond : false ∈ first.toList) :
    ∃ e, Reader.open (mix first a b) expected infos = .error e := by
  cases hopen : Reader.open (mix first a b) expected infos with
  | error e => exact ⟨e, rfl⟩
  | ok r =>
    obtain ⟨hterms, hindex, hdirectory⟩ := Reader.confirms_of_open hopen
    obtain ⟨aterms, aindex, adirectory⟩ := ha.bears
    obtain ⟨bterms, bindex, bdirectory⟩ := hb.bears
    have hagrees : ∀ choice ∈ first.toList, (bif choice then one else other).Agrees expected := by
      intro choice hchoice
      simp only [toList, List.mem_cons, List.not_mem_nil, or_false] at hchoice
      obtain rfl | rfl | rfl := hchoice
      · exact agrees_of_choice hterms (by simp [toList]) aterms bterms
      · exact agrees_of_choice hindex (by simp [toList]) aindex bindex
      · exact agrees_of_choice hdirectory (by simp [toList]) adirectory bdirectory
    exact absurd happart ((hagrees true hfirst).not_apart (hagrees false hsecond))

/-- **Streams that stand for each other are not opened**, whatever segment is expected. -/
theorem open_exchanged (h : Written one s) {exchanged : Streams Bytes}
    (hexchanged : exchanged ∈ s.exchanges) :
    ∃ e, Reader.open exchanged expected infos = .error e := by
  cases hopen : Reader.open exchanged expected infos with
  | error e => exact ⟨e, rfl⟩
  | ok r =>
    obtain ⟨hterms, hindex, hdirectory⟩ := Reader.confirms_of_open hopen
    obtain ⟨sterms, sindex, sdirectory⟩ := h.bears
    simp only [exchanges, List.mem_cons, List.not_mem_nil, or_false] at hexchanged
    obtain rfl | rfl | rfl := hexchanged
    · have hsame := (hterms one codecs.index (by simp [toList]) sindex).1
      exact absurd hsame (by decide)
    · have hsame := (hterms one codecs.directory (by simp [toList]) sdirectory).1
      exact absurd hsame (by decide)
    · have hsame := (hindex one codecs.directory (by simp [toList]) sdirectory).1
      exact absurd hsame (by decide)

/-- **Streams are told apart.** A header is accepted just if it is as expected, and the reader is
then behind it; a stream just if its end is what a footer adds to the bytes before. So streams that
are taken from two segments are not opened, and neither are those of one segment with two of them
exchanged, whatever segment is expected. -/
theorem tell_apart :
    (∀ (codec suffix : String) (version : UInt32) (id : SegmentId),
      (Bytes.ofString codec).length < 2 ^ 32 → (Bytes.ofString suffix).length < 2 ^ 32 →
      ∀ (want : Frame.Expectation) (position v : Nat) (rest : Bytes) (c : Cursor),
        let written := Item.encodeAll (Frame.header codec version id.bytes suffix)
        Frame.readHeader want ⟨position, written ++ rest⟩ = .ok v c ↔
          want.Meets codec version id.bytes suffix ∧ v = version.toNat ∧
            c = ⟨position + written.length, rest⟩) ∧
    (∀ (out : Output Memory) (bs : Bytes), out.Holds bs →
      ∃ out', Frame.writeFooter out = .ok () out' ∧ out'.Holds (Frame.framed bs)) ∧
    (∀ (data : Bytes) (stream : String) (n : Nat),
      Frame.checkFooter data stream = .ok n ↔ Frame.framed (data.take n) = data) ∧
    (∀ (one other : Segment) (a b : Streams Bytes), Written one a → Written other b →
      one.Apart other → ∀ first : Streams Bool, true ∈ first.toList → false ∈ first.toList →
      ∀ (expected : Segment) (infos : List FieldInfo),
        ∃ e, Reader.open (mix first a b) expected infos = .error e) ∧
    (∀ (segment : Segment) (s : Streams Bytes), Written segment s → ∀ exchanged ∈ s.exchanges,
      ∀ (expected : Segment) (infos : List FieldInfo),
        ∃ e, Reader.open exchanged expected infos = .error e) := by
  refine ⟨?_, ?_, ?_, ?_, ?_⟩
  · intro codec suffix version id hcodec hsuffix want position v rest c
    exact Frame.readHeader_eq_ok_iff hcodec id.length_eq hsuffix
  · intro out bs hout
    exact Frame.writeFooter_spec hout
  · intro data stream n
    exact Frame.checkFooter_eq_ok_iff
  · intro one other a b ha hb happart first hfirst hsecond expected infos
    exact open_mix ha hb happart hfirst hsecond
  · intro segment s h exchanged hexchanged expected infos
    exact open_exchanged h hexchanged

/-- A segment in memory with one term, as a session gives it. -/
def single (segment : Segment) : Option (Streams Memory) :=
  ((Session.idle (Writer.start segment {} ⟨{}, {}, {}⟩).2).history
    [.openField ⟨"body", 0, .docs⟩, .write [97] ⟨⟨1, 1⟩, []⟩, .record [4], .finish,
      .intoStreams]).findSome? Exchange.sinks?

/-- A segment without fields is written as its streams say. -/
theorem written_of_single {segment : Segment} {given : Streams Memory}
    (hstart : (Writer.start segment {} (⟨{}, {}, {}⟩ : Streams Memory)).1.isOk = true)
    (hgiven : single segment = some given) : Written segment (given.map Memory.bytes) := by
  obtain ⟨x, hx, hsinks⟩ := List.exists_of_findSome?_eq_some hgiven
  exact .given Memory.readable rfl (Writer.start_of_isOk hstart)
    ⟨x, hx, Exchange.reply_of_sinks? hsinks⟩

/-- Two segments with the same term, the same identifier and different suffixes: each is opened, but
not a mixture of them. -/
theorem tell_apart_twins :
    let plain : Segment := { name := "_0", id := default }
    let marked : Segment := { name := "_0", id := default, suffix := "m" }
    ∃ a b : Streams Bytes, Written plain a ∧ Written marked b ∧ plain.Apart marked ∧
      (Reader.open a plain [⟨"body", 0, .docs⟩]).isOk = true ∧
      (Reader.open b marked [⟨"body", 0, .docs⟩]).isOk = true ∧
      (∃ e, Reader.open ⟨a.terms, b.index, a.directory⟩ plain [⟨"body", 0, .docs⟩] = .error e) ∧
      (∃ e, Reader.open ⟨a.terms, a.directory, a.index⟩ plain [⟨"body", 0, .docs⟩] = .error e) ∧
      ∃ c, Frame.readHeader (expectation marked "m") ⟨2,
        Item.encodeAll (Frame.header "m" 1 marked.id.bytes "m") ++ [7]⟩ = .ok 1 c := by
  intro plain marked
  have hplain : (single plain).any (fun s =>
      (Reader.open (s.map Memory.bytes) plain [⟨"body", 0, .docs⟩]).isOk) = true := by
    decide +kernel
  have hmarked : (single marked).any (fun s =>
      (Reader.open (s.map Memory.bytes) marked [⟨"body", 0, .docs⟩]).isOk) = true := by
    decide +kernel
  obtain ⟨a, hgiven, hopen⟩ := (Option.any_eq_true _ _).mp hplain
  obtain ⟨b, hgiven', hopen'⟩ := (Option.any_eq_true _ _).mp hmarked
  have ha : Written plain (a.map Memory.bytes) :=
    written_of_single (by decide +kernel) hgiven
  have hb : Written marked (b.map Memory.bytes) :=
    written_of_single (by decide +kernel) hgiven'
  have hshort : (Bytes.ofString "m").length < 2 ^ 32 := by decide +kernel
  have happart : plain.Apart marked :=
    .inr ⟨by decide, show (Bytes.ofString "").length < 2 ^ 32 by decide +kernel, hshort⟩
  obtain ⟨hheader, -, -, hmix, hexchange⟩ := tell_apart
  refine ⟨_, _, ha, hb, happart, hopen, hopen', ?_, ?_, ?_⟩
  · exact hmix plain marked _ _ ha hb happart ⟨true, false, true⟩ (by decide) (by decide) plain _
  · exact hexchange plain _ ha _ (by simp [exchanges]) plain _
  · have hread := (hheader "m" "m" 1 marked.id hshort hshort (expectation marked "m") 2 1 [7]
      ⟨_, [7]⟩).mpr ⟨⟨rfl, rfl, rfl, by decide⟩, rfl, rfl⟩
    exact ⟨_, hread⟩

end Streams

end Lexicon

import Lexicon.Proofs.Segment.Replay

/-!
# What a reader is told of a field

Finishing a field gives its summary, which is stored in the directory and read back from there. It
is all that a reader knows of the field before it reads a block, so it has to be exact, and the
reader has to accept it.

> **`Session.summaries_exact`** — whatever is asked of a writer in whatever order, the summaries say
> of the finished fields what was written to them, and a reader reads the same;
> **`Session.opens_unless_exceeded`** — a segment that was ended is opened, unless more documents
> were noted of a field than its terms have.
-/

namespace Lexicon

/-! ## Sums and documents -/

namespace FieldScript

variable {s : FieldScript}

/-- Both sums of a field whose counts fit their words fit them as well, as they are kept. -/
theorem Countable.total (h : s.Countable) : s.kept.totalFreqs < 2 ^ 64 := by
  cases hkeeps : s.hasFreqs with
  | true =>
    rw [kept_of_hasFreqs hkeeps]
    exact h.totalFreqs hkeeps
  | false =>
    -- without frequencies a term occurs once in each of its documents
    have hsame : s.kept.totalFreqs = s.terms.docFreqs := by
      rw [kept, hkeeps, Terms.totalFreqs, Terms.docFreqs, Terms.kept, List.map_map]
      exact congrArg List.sum (List.map_congr_left fun t _ => UInt32.toNat_toUInt64 t.2.docFreq)
    rw [hsame]
    exact h.docFreqs

/-- A field that can be counted is not exceeded. -/
theorem Countable.not_exceeded (h : s.Countable) : ¬ s.Exceeded :=
  Terms.not_exceeded fun _ => h.covered

end FieldScript

/-! ## Readers and their summaries -/

/-- **The segment is opened**, and its readers are told what the writer kept of their fields. -/
theorem SegmentScript.Storable.opens {s : SegmentScript} (h : s.Storable)
    (hdocs : ∀ f ∈ s.finished, ¬ f.Exceeded) {streams : Streams Bytes} {w : Writer Memory}
    (hwritten : s.written = .ok w) (hstreams : s.streams = .ok streams) :
    ∃ r, Reader.open streams s.segment s.infos = .ok r ∧
      r.fields.map (·.summary) = w.summaries := by
  obtain ⟨w', stored, _, _, streams', hleaves⟩ := h.leaves
  obtain rfl := Except.ok.inj (hleaves.written.symm.trans hwritten)
  obtain rfl := Except.ok.inj (hleaves.ended.symm.trans hstreams)
  obtain ⟨r, hopen, hreads⟩ := hleaves.opens h hdocs
  refine ⟨r, hopen, ?_⟩
  rw [hleaves.has.summaries_eq, (hreads.imp fun _ _ h => h.summary.symm).map_eq]

namespace Session

variable {σ : Type} [Sink σ] {segment : Segment} {sizes : BlockSizes} {sinks given : Streams σ}
  {w : Writer σ} {content : σ → Bytes}

/-- A session that gave its sinks is read back, if no field has more documents than its terms. -/
theorem reopen {requests : List Request} (hcontent : Sink.Readable content)
    (hempty : sinks.map content = ⟨[], [], []⟩)
    (hstart : Writer.start segment sizes sinks = (.ok (), w))
    (hgiven : ∃ x ∈ (idle w).history requests, x.reply = .ok (.sinks given)) :
    let s := script segment sizes ((idle w).history requests)
    s.Bounded (given.map content) → (∀ f ∈ s.finished, f.kept.totalFreqs < 2 ^ 64) →
      (∀ f ∈ s.finished, ¬ f.Exceeded) →
        ∃ r, Reader.open (given.map content) segment s.infos = .ok r ∧
          r.fields.map (·.summary) = summaries ((idle w).history requests) := by
  intro s hbounded htotal hdocs
  obtain ⟨⟨w₁, hwritten, hsummaries⟩, hstreams, hstorable⟩ :=
    replay hcontent hempty hstart hgiven
  rw [← hsummaries]
  exact (hstorable hbounded htotal).opens hdocs hwritten hstreams

/-! ## Summaries are exact -/

/-- **The summaries are exact**, over any sinks, whatever is refused and whatever fails: they say of
the finished fields, in order, what was written to them, and so does the number of documents. Where
the sinks were given, a reader reads the same summaries from what they hold. -/
theorem summaries_exact (hstart : Writer.start segment sizes sinks = (.ok (), w))
    (requests : List Request) :
    let h := (idle w).history requests
    let last := ((idle w).final requests).writer
    let s := script segment sizes h
    (∀ f ∈ s.finished, f.Countable) →
      List.Forall₂ FieldScript.Summarizes s.finished (summaries h) ∧
      (last.index.position < 2 ^ 64 → (summaries h).Pairwise (·.indexStart ≤ ·.indexStart)) ∧
      last.docCount = DocList.distinct (s.finished.flatMap fun f => FieldStep.docs f.steps) ∧
      ∀ (content : σ → Bytes) (given : Streams σ), Sink.Readable content →
        sinks.map content = ⟨[], [], []⟩ → (∃ x ∈ h, x.reply = .ok (.sinks given)) →
        s.Bounded (given.map content) →
          ∃ r, Reader.open (given.map content) segment s.infos = .ok r ∧
            r.fields.map (·.summary) = summaries h := by
  intro h last s hcountable
  obtain ⟨htally, -, hnone⟩ := Writer.tally_start hstart
  have hsummaries : last.summaries = summaries h := by
    have hall := summaries_history requests (idle w)
    rw [show (idle w).writer.summaries = [] from hnone, List.nil_append] at hall
    exact hall
  obtain ⟨hexact, hdocs, starts, hstarts, hsorted, hle⟩ := tally_history htally requests
  refine ⟨?_, fun hposition => ?_, ?_, fun content given hcontent hempty hgiven hbounded => ?_⟩
  · rw [← hsummaries]
    exact hexact.imp_of_mem fun f hf x hx => hx (hcountable f hf)
  · rw [← hsummaries, ← List.pairwise_map, hstarts, List.pairwise_map]
    refine hsorted.imp_of_mem fun {a b} ha hb hab => ?_
    rw [UInt64.le_iff_toNat_le,
      UInt64.toNat_ofNat_of_lt' (Nat.lt_of_le_of_lt (hle a ha) hposition),
      UInt64.toNat_ofNat_of_lt' (Nat.lt_of_le_of_lt (hle b hb) hposition)]
    exact hab
  · exact congrArg DocList.distinct hdocs
  · exact reopen hcontent hempty hstart hgiven hbounded (fun f hf => (hcountable f hf).total)
      fun f hf => (hcountable f hf).not_exceeded

/-- A segment in memory, with its headers written. -/
def begun : Writer Memory := (Writer.start { name := "_0", id := default } {} ⟨{}, {}, {}⟩).2

theorem begun_eq : Writer.start { name := "_0", id := default } {} ⟨{}, {}, {}⟩ = (.ok (), begun) :=
  Writer.start_of_isOk (by decide +kernel)

/-- The calls of such a segment. -/
def calls (requests : List Request) : List (Exchange Memory) := (idle begun).history requests

/-- The script of such a segment. -/
def outline (requests : List Request) : SegmentScript :=
  script { name := "_0", id := default } {} (calls requests)

/-- The segment is small, and its sinks are given. -/
def light (requests : List Request) : Bool :=
  decide ((outline requests).fields.length < 2 ^ 32 ∧
      ∀ f ∈ (outline requests).fields, Room f.terms ∧ f.kept.load < 2 ^ 31) &&
    match (calls requests).findSome? Exchange.sinks? with
    | some given => decide (given.terms.bytes.length ≤ 2 ^ 62 ∧ given.index.bytes.length < 2 ^ 63)
    | none => false

/-- A session with few bytes gives its sinks within the bounds. -/
theorem given_of_light (requests : List Request) (h : light requests = true) :
    ∃ given, (∃ x ∈ calls requests, x.reply = .ok (.sinks given)) ∧
      (outline requests).Bounded (given.map Memory.bytes) := by
  obtain ⟨hsmall, hstreams⟩ := Bool.and_eq_true_iff.mp h
  obtain ⟨hcount, hsmall⟩ := of_decide_eq_true hsmall
  split at hstreams
  next given hgiven =>
    obtain ⟨hterms, hindex⟩ := of_decide_eq_true hstreams
    obtain ⟨x, hx, hsinks⟩ := List.exists_of_findSome?_eq_some hgiven
    have hsuffix : (Bytes.ofString "").length < 2 ^ 32 := by decide +kernel
    exact ⟨given, ⟨x, hx, Exchange.reply_of_sinks? hsinks⟩, hsuffix, hcount,
      fun f hf => (hsmall f hf).1,
      fun f hf => Terms.small_of_load _ (hsmall f (List.mem_of_mem_filter hf)).2, hterms, hindex⟩
  next => cases hstreams

/-- Two fields are finished, and one between them is given up. One term, one state and one field are
refused. -/
def interrupted : List Request :=
  [.openField ⟨"title", 1, .docs⟩, .write [] ⟨⟨1, 1⟩, []⟩, .write [97] ⟨⟨2, 7⟩, [5]⟩,
    .write [97] ⟨⟨1, 1⟩, []⟩, .record [1, 2], .finish,
    .openField ⟨"draft", 2, .freqs⟩, .write [120] ⟨⟨1, 1⟩, []⟩, .record [9], .drop,
    .openField ⟨"title", 1, .docs⟩,
    .openField ⟨"body", 5, .freqs⟩, .write [98] ⟨⟨3, 4⟩, [1, 2]⟩, .write [99] ⟨⟨0, 1⟩, []⟩,
    .record [1, 2, 3, 3], .finish, .intoStreams]

theorem summaries_exact_interrupted :
    Writer.start { name := "_0", id := default } {} ⟨{}, {}, {}⟩ = (.ok (), begun) ∧
    (outline interrupted).finished.map (·.info.name) = ["title", "body"] ∧
    List.Forall₂ FieldScript.Summarizes (outline interrupted).finished
      (summaries (calls interrupted)) ∧
    (summaries (calls interrupted)).Pairwise (·.indexStart ≤ ·.indexStart) ∧
    ((idle begun).final interrupted).writer.docCount = 3 ∧
    ∃ given r, (∃ x ∈ calls interrupted, x.reply = .ok (.sinks given)) ∧
      Reader.open (given.map Memory.bytes) { name := "_0", id := default }
        (outline interrupted).infos = .ok r ∧
      r.fields.map (·.summary) = summaries (calls interrupted) := by
  have hcounts : ∀ f ∈ (outline interrupted).finished, f.terms.length < 2 ^ 64 ∧
      f.terms.docFreqs < 2 ^ 64 ∧ (f.hasFreqs = true → f.terms.totalFreqs < 2 ^ 64) ∧
      DocList.distinct (FieldStep.docs f.steps) < 2 ^ 32 ∧
      DocList.distinct (FieldStep.docs f.steps) ≤ f.terms.docFreqs := by decide +kernel
  obtain ⟨hexact, hstarts, hdocs, hread⟩ := summaries_exact begun_eq interrupted fun f hf =>
    ⟨(hcounts f hf).1, (hcounts f hf).2.1, (hcounts f hf).2.2.1, (hcounts f hf).2.2.2.1,
      (hcounts f hf).2.2.2.2⟩
  obtain ⟨given, hgiven, hbounded⟩ := given_of_light interrupted (by decide +kernel)
  obtain ⟨r, hopen, hsummaries⟩ := hread Memory.bytes given Memory.readable rfl hgiven hbounded
  exact ⟨begun_eq, by decide +kernel, hexact, hstarts (by decide +kernel),
    hdocs.trans (by decide +kernel), given, r, hgiven, hopen, hsummaries⟩

/-! ## Summaries are accepted -/

/-- **A segment that was ended is opened, unless more documents were noted of a finished field than
its terms have.** Then it is refused for the first such field. -/
theorem opens_unless_exceeded {requests : List Request} (hcontent : Sink.Readable content)
    (hempty : sinks.map content = ⟨[], [], []⟩)
    (hstart : Writer.start segment sizes sinks = (.ok (), w))
    (hgiven : ∃ x ∈ (idle w).history requests, x.reply = .ok (.sinks given)) :
    let h := (idle w).history requests
    let s := script segment sizes h
    s.Bounded (given.map content) → (∀ f ∈ s.finished, f.kept.totalFreqs < 2 ^ 64) →
      match s.finished.find? (fun f => f.Exceeded) with
      | none => ∃ r, Reader.open (given.map content) segment s.infos = .ok r ∧
          r.fields.map (·.summary) = summaries h
      | some f => Reader.open (given.map content) segment s.infos
          = .error (.corrupt (.docFreqBelowDocCount f.info.name f.terms.docFreqs
            (UInt32.ofNat (DocList.distinct (FieldStep.docs f.steps))).toNat)) := by
  intro h s hbounded htotal
  cases hfind : s.finished.find? (fun f => f.Exceeded) with
  | none =>
    refine reopen hcontent hempty hstart hgiven hbounded htotal fun f hf hexceeded => ?_
    exact List.find?_eq_none.mp hfind f hf (decide_eq_true hexceeded)
  | some f =>
    obtain ⟨hexceeded, front, rest, hfinished, hfront⟩ := List.find?_eq_some_iff_append.mp hfind
    obtain ⟨-, hstreams, hstorable⟩ := replay hcontent hempty hstart hgiven
    have hs : s.Storable := hstorable hbounded htotal
    obtain ⟨_, _, _, _, streams', hleaves⟩ := hs.leaves
    obtain rfl := Except.ok.inj (hleaves.ended.symm.trans hstreams)
    exact hleaves.refused hs hfinished (fun x hx => by simpa using hfront x hx)
      (of_decide_eq_true hexceeded)

/-- More documents than its terms have are noted of a field that is given up, and as many of one
that is finished. Another field has neither terms nor documents. -/
def overfull : List Request :=
  [.openField ⟨"bare", 0, .freqs⟩, .finish,
    .openField ⟨"draft", 1, .docs⟩, .write [97] ⟨⟨1, 1⟩, []⟩, .record [1, 2, 3], .drop,
    .openField ⟨"body", 2, .docs⟩, .write [97] ⟨⟨2, 2⟩, []⟩, .record [1, 2, 2], .finish,
    .intoStreams]

theorem opens_unless_exceeded_overfull :
    ∃ given r, (∃ x ∈ calls overfull, x.reply = .ok (.sinks given)) ∧
      (outline overfull).Bounded (given.map Memory.bytes) ∧
      Reader.open (given.map Memory.bytes) { name := "_0", id := default }
        (outline overfull).infos = .ok r ∧
      r.fields.map (·.summary) = summaries (calls overfull) := by
  obtain ⟨given, hgiven, hbounded⟩ := given_of_light overfull (by decide +kernel)
  have hopens := opens_unless_exceeded Memory.readable rfl begun_eq hgiven hbounded
    (by decide +kernel)
  have hnone : (script { name := "_0", id := default } {}
      ((idle begun).history overfull)).finished.find? (fun f => f.Exceeded) = none := by
    decide +kernel
  rw [hnone] at hopens
  obtain ⟨r, hopen, hsummaries⟩ := hopens
  exact ⟨given, r, hgiven, hbounded, hopen, hsummaries⟩

/-- One term with one document, and two documents noted. -/
def exceeding : List Request :=
  [.openField ⟨"body", 0, .docs⟩, .write [97] ⟨⟨1, 1⟩, []⟩, .record [1, 2], .finish, .intoStreams]

/-- All calls succeed, and yet the segment is refused. -/
theorem exceeding_refused :
    (calls exceeding).length = 5 ∧ (∀ x ∈ calls exceeding, x.reply.isOk = true) ∧
    ∃ given, (∃ x ∈ calls exceeding, x.reply = .ok (.sinks given)) ∧
      Reader.open (given.map Memory.bytes) { name := "_0", id := default } [⟨"body", 0, .docs⟩]
        = .error (.corrupt (.docFreqBelowDocCount "body" 1 2)) := by
  have hkernel : (match (calls exceeding).findSome? Exchange.sinks? with
      | some given =>
        match Reader.open (given.map Memory.bytes) { name := "_0", id := default }
          [⟨"body", 0, .docs⟩] with
        | .error e => decide (e = .corrupt (.docFreqBelowDocCount "body" 1 2))
        | .ok _ => false
      | none => false) = true := by decide +kernel
  refine ⟨by decide +kernel, by decide +kernel, ?_⟩
  split at hkernel
  next given hgiven =>
    obtain ⟨x, hx, hsinks⟩ := List.exists_of_findSome?_eq_some hgiven
    refine ⟨given, ⟨x, hx, Exchange.reply_of_sinks? hsinks⟩, ?_⟩
    split at hkernel
    next hopen => rw [hopen, of_decide_eq_true hkernel]
    next => cases hkernel
  next => cases hkernel

end Session

end Lexicon

import Lexicon.Proofs.Segment.Fields

/-!
# The shape of a field

What is written of a field is told here by its terms alone: which prefixes get a run, what is in
each run, and how large its blocks are. A field writer makes up its mind term by term and never
sees the trie of all terms; `finish_levels` says that the outcome is that of the recursion over
this trie.

> **`finish_levels`** — the runs of a finished field are those of the sealed prefixes, each with
> what is right below its own;
> **`blocks_bounded`** — and every block that is ever written keeps to its sizes, in runs that
> belong to the sealed prefixes of the terms taken so far.
-/

namespace Lexicon

theorem Writer.after_discard {α : Type} (c : Call Memory α) (w : Writer Memory) :
    after (c >>= fun _ => pure ()) w = after c w := by
  cases h : c w with
  | ok a w' => rw [after_ok h, after, bind_ok h]; rfl
  | error e w' => rw [after_error h, after, bind_error h]

/-- Does what the steps say with a field that was just opened, and finishes it if wanted. -/
def FieldWriter.runFrom {σ : Type} [Sink σ] (info : FieldInfo) (steps : List FieldStep)
    (finished : Bool) : Writer.Call σ Unit := do
  let f ← FieldWriter.run { info } steps
  if finished then
    let _ ← f.finish

namespace FieldWriter

variable {sizes : BlockSizes} {w : Writer Memory} {stream index directory : Bytes}

theorem runFrom_true {info : FieldInfo} {steps : List FieldStep} {f : FieldWriter}
    {w' : Writer Memory} (h : FieldWriter.run { info } steps w = .ok f w') :
    runFrom info steps true w = (f.finish >>= fun _ => pure ()) w' := by
  rw [runFrom, bind_ok h]
  rfl

/-- **The index of a field maps just the sealed prefixes**, and the run of each has, in order, the
terms and the sealed prefixes that are right below it. -/
theorem finish_levels (hsizes : sizes.check = .ok ()) (hw : w.Holds stream index directory)
    (hsame : w.sizes = sizes) (info : FieldInfo) (steps : List FieldStep)
    (hne : FieldStep.terms steps ≠ [])
    (hincreasing : (FieldStep.terms steps).keys.Pairwise (· < ·))
    (haccepted : Accepted info.options.hasFreqs (FieldStep.terms steps))
    (hroom : Room (FieldStep.terms steps)) :
    ∃ (w' : Writer Memory) (t : Transducer) (pairs : Pairs) (runs : List Run),
      runFrom info steps true w = .ok () w' ∧ w'.index.Holds (index ++ t.save) ∧
      t.entries = .ok pairs ∧
      (∀ p, p ∈ pairs.map (·.1) ↔ Trie.Sealed sizes.min (FieldStep.terms steps).keys p) ∧
      (∃ items codec emitted, w'.terms.Holds (stream ++ Item.encodeAll items) ∧
        Emits sizes info.options.hasFreqs ⟨stream.length, w.codec, []⟩ emitted
          ⟨stream.length + (Item.encodeAll items).length, codec, items⟩ ∧ runs.Perm emitted) ∧
      ∀ p, Trie.Sealed sizes.min (FieldStep.terms steps).keys p → ∃ r ∈ runs, r.stem = p ∧
        (p, r.location.encode) ∈ pairs ∧
        r.Level sizes ((FieldStep.terms steps).kept info.options.hasFreqs) := by
  have hvalid := BlockSizes.valid_of_check hsizes
  obtain ⟨w₁, items, new, hwrote, houtcome⟩ :=
    run_spec hvalid steps (inv_new hvalid info stream) hw hsame hincreasing
  have hkept := hroom.kept info.options.hasFreqs
  rcases houtcome with ⟨f, hrun, hinfo, hdocs, hinv⟩ | ⟨-, -, hnot⟩
  · have hw₁ := hwrote.holds hw
    obtain ⟨w₂, items', new', hwrote', -, hstored⟩ :=
      finish_spec hvalid hinv hw₁ (hwrote.sizes_eq.trans hsame)
    obtain ⟨s, out, hwritten, hfinish⟩ := hstored hkept
    have hfinished := runFrom_true hrun
    rw [bind_ok hfinish] at hfinished
    rw [hinfo] at hwrote'
    have hall := hwrote.trans hwrote'
    have hterms : s.terms = (FieldStep.terms steps).kept info.options.hasFreqs := hwritten.terms
    have hkeys : s.terms.keys = (FieldStep.terms steps).keys := by
      rw [hterms, Terms.keys_kept]
    cases htree : s.tree with
    | none =>
      have hnil := hwritten.inside.empty htree
      rw [hterms, Terms.kept, List.map_eq_nil_iff] at hnil
      exact absurd hnil hne
    | some tree =>
      obtain ⟨t, runs⟩ := tree
      obtain ⟨hrooted, -⟩ := hwritten.inside.rooted t runs htree
      have hstems := hrooted.mem_stems_iff hvalid.two_le
      have hlevels := hrooted.levels hvalid.two_le
      rw [hkeys] at hstems
      rw [hterms] at hlevels
      have hpairs : ∀ p, p ∈ (runs.map Run.pair).map (·.1) ↔ p ∈ runs.map Run.stem := by
        intro p
        rw [List.map_map]
        rfl
      have hentries : t.entries = .ok (runs.map Run.pair) := by
        obtain ⟨-, -, -, -, -, -, -, hdenotes⟩ := hrooted
        exact Transducer.entries_eq hdenotes
      have hholds := hwritten.holds
      rw [StoredField.indexBytes, htree] at hholds
      refine ⟨_, t, runs.map Run.pair, runs, hfinished, hholds, hentries,
        fun p => (hpairs p).trans (hstems p), ⟨_, _, _, (hall.holds hw).terms, hall.emits hw,
          hwritten.runs t runs htree⟩, fun p hp => ?_⟩
      obtain ⟨r, hr, rfl⟩ := List.mem_map.mp ((hstems p).mpr hp)
      exact ⟨r, hr, rfl, List.mem_map_of_mem hr, hlevels r hr⟩
  · exact absurd ⟨hkept, haccepted⟩ hnot

/-- The terms `abc`, `acc`, `acea`, `aceb`, `acee` and `adff`. -/
def worked : List FieldStep :=
  [.write [97, 98, 99] ⟨⟨1, 1⟩, []⟩, .write [97, 99, 99] ⟨⟨1, 1⟩, []⟩,
    .write [97, 99, 101, 97] ⟨⟨1, 1⟩, []⟩, .write [97, 99, 101, 98] ⟨⟨1, 1⟩, []⟩,
    .write [97, 99, 101, 101] ⟨⟨1, 1⟩, []⟩, .write [97, 100, 102, 102] ⟨⟨1, 1⟩, []⟩]

/-- Two entries make a run, so `ace` gets one. -/
theorem sealed_worked : Trie.Sealed 2 (FieldStep.terms worked).keys [97, 99, 101] :=
  .inr (by decide +kernel)

/-- With two entries to a block, `ace` gets a run of its own and `ab` does not. -/
theorem finish_levels_worked : ∃ (w' : Writer Memory) (t : Transducer) (pairs : Pairs),
    runFrom ⟨"body", 0, .freqs⟩ worked true (fresh ⟨2, 4⟩) = .ok () w' ∧
      w'.index.Holds t.save ∧ t.entries = .ok pairs ∧
      [97, 99, 101] ∈ pairs.map (·.1) ∧ [97, 98] ∉ pairs.map (·.1) := by
  have hsizes : (⟨2, 4⟩ : BlockSizes).check = .ok () := rfl
  obtain ⟨w', t, pairs, runs, hrun, hindex, hentries, hkeys, -, -⟩ :=
    finish_levels hsizes (holds_fresh _) rfl ⟨"body", 0, .freqs⟩ worked (by decide)
      (by decide) (by decide) (by decide)
  refine ⟨w', t, pairs, hrun, hindex, hentries, (hkeys _).mpr sealed_worked, fun hmem => ?_⟩
  rcases (hkeys _).mp hmem with hnil | hsize
  · cases hnil
  · exact absurd hsize (by decide +kernel)

/-- The runs that were emitted for the terms taken so far are levels of their trie. -/
theorem Inv.levelled {f : FieldWriter} {terms : Terms} {trace : List Run} (hsizes : sizes.Valid)
    (h : f.Inv sizes stream terms trace) (hroom : Room terms) : Levelled sizes terms trace := by
  obtain ⟨runs, hperm, hstands⟩ := h.frontier.stands hroom
  have hordered := h.frontier.ordered
  exact (hstands.levelled hsizes.two_le hordered.keys hordered.apart).perm hperm

/-- The runs of a stored field are all the levels of the trie of its terms. -/
theorem levelled_of_written {f : FieldWriter} {terms : Terms} {trace : List Run} {s : StoredField}
    {out : Output Memory} (hsizes : sizes.Valid)
    (h : s.Written sizes f terms stream index trace out) :
    Levelled sizes terms trace ∧
      (terms ≠ [] → ∀ p, Trie.Sealed sizes.min terms.keys p → p ∈ trace.map Run.stem) := by
  have hterms := h.terms
  cases htree : s.tree with
  | none =>
    have hnil := h.inside.empty htree
    rw [hterms] at hnil
    rw [h.bare htree]
    exact ⟨⟨.nil, by simp, by simp⟩, fun hne => absurd hnil hne⟩
  | some tree =>
    obtain ⟨t, runs⟩ := tree
    obtain ⟨hrooted, -⟩ := h.inside.rooted t runs htree
    have hperm := h.runs t runs htree
    rw [hterms] at hrooted
    refine ⟨(hrooted.levelled hsizes.two_le).perm hperm, fun _ p hp => ?_⟩
    exact (hperm.map Run.stem).mem_iff.mp ((hrooted.mem_stems_iff hsizes.two_le p).mpr hp)

/-- What comes of a field, finished or not: runs were emitted for the first of its terms, which are
levels of the trie of these; for all of them if they are accepted, and then, if the field is
finished, every sealed prefix has its run. -/
structure Yields (sizes : BlockSizes) (finished : Bool) (hasFreqs : Bool) (terms taken : Terms)
    (runs : List Run) : Prop where
  first : taken <+: terms.kept hasFreqs
  levelled : Levelled sizes taken runs
  all : Accepted hasFreqs terms → taken = terms.kept hasFreqs ∧ (finished = true → taken ≠ [] →
    ∀ p, Trie.Sealed sizes.min taken.keys p → p ∈ runs.map Run.stem)

/-- What a field adds to the stream of blocks is emitted for its terms. -/
theorem runFrom_spec (hsizes : sizes.Valid) (hw : w.Holds stream index directory)
    (hsame : w.sizes = sizes) (info : FieldInfo) (steps : List FieldStep) (finished : Bool)
    (hincreasing : (FieldStep.terms steps).keys.Pairwise (· < ·)) :
    ∃ w' items new, Writer.Wrote sizes info.options.hasFreqs w w' items new ∧
      (Writer.after (runFrom info steps finished) w).terms = w'.terms ∧
      (Room (FieldStep.terms steps) → ∃ taken,
        Yields sizes finished info.options.hasFreqs (FieldStep.terms steps) taken new) := by
  obtain ⟨w₁, items, new, hwrote, houtcome⟩ :=
    run_spec hsizes steps (inv_new hsizes info stream) hw hsame hincreasing
  obtain ⟨f, hrun, hinfo, -, hinv⟩ | ⟨⟨e, failed, hrun⟩, ⟨f, taken, htaken, hinv⟩, hnot⟩ := houtcome
  case inr =>
    have hall : runFrom info steps finished w = .error e { w₁ with failed } := by
      rw [runFrom, bind_error hrun]
    refine ⟨w₁, items, new, hwrote, by rw [Writer.after_error hall], fun hroom => ?_⟩
    have hkept := hroom.kept info.options.hasFreqs
    obtain ⟨more, hmore⟩ := htaken
    refine ⟨taken, ⟨more, hmore⟩, hinv.levelled hsizes ?_, fun haccepted => ?_⟩
    · exact Room.of_append (b := more) (hmore ▸ hkept)
    · exact absurd ⟨hkept, haccepted⟩ hnot
  cases finished with
  | false =>
    have hall : runFrom info steps false w = .ok () w₁ := by
      rw [runFrom, bind_ok hrun]
      rfl
    refine ⟨w₁, items, new, hwrote, by rw [Writer.after_ok hall], fun hroom => ?_⟩
    exact ⟨_, List.prefix_rfl, hinv.levelled hsizes (hroom.kept _), fun _ => ⟨rfl, nofun⟩⟩
  | true =>
    obtain ⟨w₂, items', new', hwrote', hafter, hstored⟩ :=
      finish_spec hsizes hinv (hwrote.holds hw) (hwrote.sizes_eq.trans hsame)
    rw [hinfo] at hwrote'
    refine ⟨w₂, _, _, hwrote.trans hwrote', ?_, fun hroom => ?_⟩
    · rw [Writer.after, runFrom_true hrun, ← Writer.after, Writer.after_discard]
      exact hafter
    · obtain ⟨s, out, hwritten, -⟩ := hstored (hroom.kept _)
      obtain ⟨hlevelled, hsealed⟩ := levelled_of_written hsizes hwritten
      exact ⟨_, List.prefix_rfl, hlevelled, fun _ => ⟨rfl, fun _ => hsealed⟩⟩

/-- **Every block that is written keeps to its sizes**, whatever comes of the field: no block has
too many entries, only the last block of a run has too few, and no run of a prefix has too few. The
runs are those that the terms come to, as far as these were taken. -/
theorem blocks_bounded (hsizes : sizes.check = .ok ()) (hw : w.Holds stream index directory)
    (hsame : w.sizes = sizes) (info : FieldInfo) (steps : List FieldStep) (finished : Bool)
    (hincreasing : (FieldStep.terms steps).keys.Pairwise (· < ·)) :
    ∃ items codec runs, (Writer.after (runFrom info steps finished) w).terms.Holds
        (stream ++ Item.encodeAll items) ∧
      Emits sizes info.options.hasFreqs ⟨stream.length, w.codec, []⟩ runs
        ⟨stream.length + (Item.encodeAll items).length, codec, items⟩ ∧
      (Room (FieldStep.terms steps) → ∃ taken,
        Yields sizes finished info.options.hasFreqs (FieldStep.terms steps) taken runs) ∧
      ∀ r ∈ runs, (∀ p ∈ r.pieces, p.entries.length ≤ sizes.max) ∧
        (∀ p ∈ r.pieces.dropLast, sizes.min ≤ p.entries.length) ∧
        (r.stem ≠ [] → sizes.min ≤ r.entries.length) := by
  have hvalid := BlockSizes.valid_of_check hsizes
  obtain ⟨w', items, new, hwrote, hafter, hyields⟩ :=
    runFrom_spec hvalid hw hsame info steps finished hincreasing
  refine ⟨items, w'.codec, new, ?_, hwrote.emits hw, hyields, fun r hr => ?_⟩
  · rw [hafter]
    exact (hwrote.holds hw).terms
  · have hbounded := hwrote.steps.bounded r hr
    exact ⟨hbounded.le_max, hbounded.min_le, hbounded.enough⟩

/-- The runs of a finished field keep to the sizes, and one of them is that of `ace`. -/
theorem blocks_bounded_worked : ∃ items codec runs,
    (Writer.after (runFrom ⟨"body", 0, .freqs⟩ worked true) (fresh ⟨2, 4⟩)).terms.Holds
        (Item.encodeAll items) ∧
      Emits ⟨2, 4⟩ true ⟨0, {}, []⟩ runs ⟨(Item.encodeAll items).length, codec, items⟩ ∧
      Levelled ⟨2, 4⟩ (FieldStep.terms worked) runs ∧ [97, 99, 101] ∈ runs.map Run.stem ∧
      ∀ r ∈ runs, (∀ p ∈ r.pieces, p.entries.length ≤ 4) ∧
        (∀ p ∈ r.pieces.dropLast, 2 ≤ p.entries.length) ∧ (r.stem ≠ [] → 2 ≤ r.entries.length) := by
  have hsizes : (⟨2, 4⟩ : BlockSizes).check = .ok () := rfl
  obtain ⟨items, codec, runs, hholds, hemits, hyields, hbounded⟩ :=
    blocks_bounded hsizes (holds_fresh _) rfl ⟨"body", 0, .freqs⟩ worked true (by decide)
  rw [List.nil_append] at hholds
  rw [List.length_nil, Nat.zero_add] at hemits
  obtain ⟨taken, -, hlevelled, hall⟩ := hyields (by decide)
  obtain ⟨rfl, hsealed⟩ := hall (by decide)
  exact ⟨items, codec, runs, hholds, hemits, hlevelled,
    hsealed rfl (by decide) _ sealed_worked, hbounded⟩

end FieldWriter

end Lexicon

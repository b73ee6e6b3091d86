import Lexicon.Proofs.Field.Directory
import Lexicon.Proofs.Segment.Fields
import Lexicon.Proofs.Segment.Lookup

/-!
# Within the bounds of the formats

The formats store lengths and sums in a fixed number of bits. `FieldScript.Fits` says that what is
written to a field stays below that: no block can be as large as the lengths of its parts allow, and
the sums of the field are what they are called.

> **`StoredField.In.shows`** — a reader can look such a field up in the stream;
> **`StoredField.In.check_eq`** — and the directory accepts its summary, or says why not.
-/

namespace Lexicon

/-! ## A block is no larger than terms that it has -/

variable {sizes : BlockSizes} {stored : Run → Prop} {entries : List Entry} {terms : Terms}
  {runs : List Run}

/-- The bytes that terms add to any part of a block that has them as entries. -/
def Terms.load (terms : Terms) : Nat := (terms.map fun t => Entry.load (.term t.1 t.2)).sum

theorem Terms.load_cons (t : Bytes × TermState) (terms : Terms) :
    Terms.load (t :: terms) = Entry.load (.term t.1 t.2) + terms.load := by
  simp [Terms.load]

/-- For all entries of a part there are terms below them, one for each, that are no smaller. -/
theorem Stands.exists_sample (hmin : 2 ≤ sizes.min) (h : Stands sizes stored entries terms runs) :
    ∀ part : List Entry, part.Sublist entries → ∃ sample : Terms, sample.Sublist terms ∧
      sample.length = part.length ∧ Lexicon.load part ≤ sample.load := by
  induction h with
  | nil =>
    intro part hpart
    obtain rfl := List.sublist_nil.mp hpart
    exact ⟨[], .slnil, rfl, Nat.le_refl _⟩
  | @term key state rest terms runs _ ih =>
    intro part hpart
    rcases List.sublist_cons_iff.mp hpart with hrest | ⟨part', rfl, hrest⟩
    · obtain ⟨sample, hsample, hlength, hload⟩ := ih part hrest
      exact ⟨sample, hsample.cons _, hlength, hload⟩
    · obtain ⟨sample, hsample, hlength, hload⟩ := ih part' hrest
      refine ⟨(key, state) :: sample, hsample.cons_cons _, ?_, ?_⟩
      · rw [List.length_cons, List.length_cons, hlength]
      · rw [Lexicon.load_cons, Terms.load_cons]
        exact Nat.add_le_add_left hload _
  | @block b r inside terms rest below runs stem _ proper sound _ inner _ _ _ ihOthers =>
    intro part hpart
    rcases List.sublist_cons_iff.mp hpart with hrest | ⟨part', rfl, hrest⟩
    · obtain ⟨sample, hsample, hlength, hload⟩ := ihOthers part hrest
      exact ⟨sample, (List.nil_sublist _).append hsample, hlength, hload⟩
    · obtain ⟨sample, hsample, hlength, hload⟩ := ihOthers part' hrest
      -- Any term of the run below stands for its block.
      obtain ⟨e, he⟩ := List.exists_mem_of_length_pos
        (Nat.lt_of_lt_of_le (by omega : 0 < sizes.min) (sound.enough proper))
      obtain ⟨t, ht, hpre⟩ := inner.exists_term hmin e he
      have hlonger := ((sound.within e he).prefix_key.trans hpre).length_le
      refine ⟨t :: sample, ?_, ?_, ?_⟩
      · exact (List.singleton_sublist.mpr ht).append hsample
      · rw [List.length_cons, List.length_cons, hlength]
      · rw [Lexicon.load_cons, Terms.load_cons]
        have hblock : Entry.load (.block b) ≤ Entry.load (.term t.1 t.2) := by
          simp only [Entry.load]
          rw [stem]
          omega
        omega

/-- No block that has only so many entries is too large for its format. -/
def Terms.Small (sizes : BlockSizes) (terms : Terms) : Prop :=
  ∀ part : Terms, part.Sublist terms → part.length ≤ sizes.max → part.load < 2 ^ 31

/-- Some of the terms have a load that is no greater. -/
theorem Terms.load_le_of_sublist {part : Terms} (h : part.Sublist terms) :
    part.load ≤ terms.load := by
  induction h with
  | slnil => exact Nat.le_refl _
  | cons t _ ih =>
    rw [Terms.load_cons]
    exact Nat.le_add_left_of_le ih
  | cons_cons t _ ih =>
    rw [Terms.load_cons, Terms.load_cons]
    exact Nat.add_le_add_left ih _

/-- Terms that are small in all are small in every block. -/
theorem Terms.small_of_load (sizes : BlockSizes) (h : terms.load < 2 ^ 31) : terms.Small sizes :=
  fun _ hpart _ => Nat.lt_of_le_of_lt (Terms.load_le_of_sublist hpart) h

/-- A state that is accepted can be recorded. -/
theorem recordable_of_check {hasFreqs : Bool} {state : TermState}
    (h : state.check hasFreqs = .ok ()) : BlockStats.Recordable hasFreqs state.toTermStats := by
  rw [TermState.check] at h
  split at h
  · cases h
  · split at h
    · cases h
    · next hmost =>
      split at h
      · cases h
      · next htotal =>
        rw [TermState.maxDocFreq] at hmost
        exact ⟨by omega, fun hfreqs => Nat.le_of_not_lt fun hlt => htotal ⟨hfreqs, hlt⟩⟩

/-- **The pieces of the runs can be stored.** -/
theorem Rooted.storable {index : Transducer} {hasFreqs : Bool} (hmin : 2 ≤ sizes.min)
    (h : Rooted sizes stored index terms runs) (hsmall : terms.Small sizes)
    (haccepted : FieldWriter.Accepted hasFreqs terms) :
    ∀ r ∈ runs, ∀ p ∈ r.pieces, p.Storable hasFreqs := by
  intro r hr p hp
  obtain ⟨below, ⟨hsound, -, hstands⟩, -, -⟩ := h.exists_standsFor r hr
  have hsub : p.entries.Sublist r.entries := by
    rw [Run.entries, List.flatMap_def]
    exact List.sublist_flatten_of_mem (List.mem_map_of_mem hp)
  have hfilter : (terms.startingWith r.stem).Sublist terms := List.filter_sublist
  refine ⟨?_, fun key state hterm => ?_⟩
  · obtain ⟨sample, hsample, hlength, hload⟩ := hstands.exists_sample hmin p.entries hsub
    refine Nat.lt_of_le_of_lt hload (hsmall sample (hsample.trans hfilter) ?_)
    rw [hlength]
    exact hsound.le_max p hp
  · have hmem := hstands.mem_of_term (hsub.subset hterm)
    exact recordable_of_check (haccepted _ (hfilter.subset hmem))

/-! ## Stored fields can be read -/

/-- **A reader can look the field up**, if its index was loaded, whatever comes after its runs. -/
theorem StoredField.In.shows {s : StoredField} {stream index : Bytes} {t : Transducer}
    (hmin : 2 ≤ sizes.min) (h : s.In sizes stream index) (htree : s.tree = some (t, runs))
    (hsmall : s.terms.Small sizes) (haccepted : FieldWriter.Accepted s.hasFreqs s.terms)
    (more : Bytes) (hroom : (stream ++ more).length ≤ 2 ^ 62) (summary : FieldSummary) :
    FieldReader.Shows ⟨s.info, summary, some t, stream ++ more⟩ sizes s.terms runs := by
  obtain ⟨hrooted, hoffsets⟩ := h.rooted t runs htree
  have hstorable := hrooted.storable hmin hsmall haccepted
  refine ⟨⟨t, rfl, hrooted.mono fun r hr hin => ⟨fun p hp => ?_, ?_⟩⟩, hoffsets, hroom⟩
  · have := hin.before p hp
    show _ < (stream ++ more).length
    rw [List.length_append]
    omega
  · rw [List.length_append] at hroom
    exact hin.chain (by omega) (hstorable r hr) more

/-! ## The directory accepts stored fields -/

/-- A small field has terms of less than 2^31 bytes. -/
theorem Terms.Small.length_lt (hsizes : sizes.Valid) (h : terms.Small sizes)
    {t : Bytes × TermState} (ht : t ∈ terms) : t.1.length < 2 ^ 31 := by
  have hone := h [t] (List.singleton_sublist.mpr ht) (by
    have := hsizes.two_le
    have := hsizes.le
    rw [List.length_singleton]
    omega)
  rw [Terms.load_cons] at hone
  simp only [Entry.load] at hone
  omega

/-- No more documents than occurrences are counted. -/
theorem Terms.docFreqs_le (h : ∀ t ∈ terms, t.2.docFreq.toNat ≤ t.2.totalFreq.toNat) :
    terms.docFreqs ≤ terms.totalFreqs := by
  induction terms with
  | nil => exact Nat.le_refl _
  | cons t terms ih =>
    have hrest := ih fun x hx => h x (List.mem_cons_of_mem _ hx)
    have hfirst := h t (List.mem_cons_self ..)
    rw [docFreqs, totalFreqs] at hrest ⊢
    rw [List.map_cons, List.map_cons, List.sum_cons, List.sum_cons]
    omega

/-- The sums over the terms are what they are called. -/
structure Terms.Summable (terms : Terms) : Prop where
  each : ∀ t ∈ terms, t.2.docFreq.toNat ≤ t.2.totalFreq.toNat
  total : terms.totalFreqs < 2 ^ 64

/-- More documents were noted than the terms have, the number of them being a word. -/
def Terms.Exceeded (terms : Terms) (docs : DocList) : Prop :=
  terms ≠ [] ∧ terms.docFreqs < (UInt32.ofNat docs.distinct).toNat

instance (terms : Terms) (docs : DocList) : Decidable (terms.Exceeded docs) :=
  inferInstanceAs (Decidable (terms ≠ [] ∧ terms.docFreqs < (UInt32.ofNat docs.distinct).toNat))

/-- A field whose documents are those of its terms is not exceeded. -/
theorem Terms.not_exceeded {docs : DocList} (h : terms ≠ [] → docs.distinct ≤ terms.docFreqs) :
    ¬ terms.Exceeded docs := by
  rintro ⟨hne, hlt⟩
  have hdocs := h hne
  -- the count of documents is cut to 32 bits, which makes it smaller if anything
  rw [UInt32.toNat_ofNat'] at hlt
  have := Nat.mod_le docs.distinct (2 ^ 32)
  omega

/-- More documents were noted of the field than its terms have. -/
def FieldScript.Exceeded (s : FieldScript) : Prop := s.terms.Exceeded (FieldStep.docs s.steps)

instance (s : FieldScript) : Decidable s.Exceeded :=
  inferInstanceAs (Decidable (s.terms.Exceeded (FieldStep.docs s.steps)))

/-- What is kept of terms is exceeded like the terms. -/
theorem FieldScript.StoredAs.exceeded_iff {s : FieldScript} {stored : StoredField}
    (h : s.StoredAs stored) : stored.terms.Exceeded stored.docs ↔ s.Exceeded := by
  rw [FieldScript.Exceeded, Terms.Exceeded, Terms.Exceeded, h.terms, h.docs, FieldScript.kept,
    Terms.docFreqs_kept]
  exact and_congr_left' (not_congr List.map_eq_nil_iff)

/-- A location is never written as nothing. -/
theorem Location.encode_ne_nil (l : Location) : l.encode ≠ [] := by
  rw [encode, items, Item.encodeAll_cons]
  exact fun hnil => Varint.encode_ne_nil _ (List.append_eq_nil_iff.mp hnil).1

/-- Of terms in order the last is not before the first. -/
theorem not_last_lt_first (h : terms.Pairwise fun s t => s.1 < t.1) :
    ¬ (terms.getLast?.map (·.1)).getD [] < (terms.head?.map (·.1)).getD [] := by
  cases terms with
  | nil => exact List.lt_irrefl _
  | cons t terms =>
    show ¬ (((t :: terms).getLast?.map (·.1)).getD [] : Bytes) < t.1
    cases hlast : terms.getLast? with
    | none =>
      obtain rfl := List.getLast?_eq_none_iff.mp hlast
      exact List.lt_irrefl _
    | some x =>
      rw [List.getLast?_cons, hlast]
      exact List.lt_asymm ((List.pairwise_cons.mp h).1 x (List.mem_of_getLast? hlast))

namespace StoredField

variable {s : StoredField} {stream index : Bytes} {t : Transducer}

/-- A stored field with an index has terms. -/
theorem In.terms_ne_nil (hmin : 2 ≤ sizes.min) (h : s.In sizes stream index)
    (htree : s.tree = some (t, runs)) : s.terms ≠ [] := by
  obtain ⟨⟨r, below, -, -, hsound, -, hstands, -⟩, -⟩ := h.rooted t runs htree
  obtain ⟨p, hp⟩ := List.exists_mem_of_ne_nil _ hsound.nonempty
  obtain ⟨e, he⟩ := List.exists_mem_of_ne_nil _ (hsound.sliced.nonempty p hp)
  obtain ⟨x, hx, -⟩ := hstands.exists_term hmin e (List.mem_flatMap.mpr ⟨p, hp, he⟩)
  exact List.ne_nil_of_mem hx

/-- **The summary of a stored field is accepted**, unless more documents were noted of the field
than its terms have. -/
theorem In.check_eq (hmin : 2 ≤ sizes.min) (h : s.In sizes stream index)
    (hsums : s.terms.Summable) (name : String) :
    s.summary.check name = if s.terms.Exceeded s.docs then
      .error (.corrupt (.docFreqBelowDocCount name s.terms.docFreqs
        (UInt32.ofNat s.docs.distinct).toNat)) else .ok () := by
  cases htree : s.tree with
  | none =>
    rw [if_neg fun hexceeded => hexceeded.1 (h.empty htree), summary, htree]
    rfl
  | some tree =>
    obtain ⟨t, runs⟩ := tree
    have hne := h.terms_ne_nil hmin htree
    obtain ⟨hrooted, -⟩ := h.rooted t runs htree
    obtain ⟨r, -, -, houtput⟩ := hrooted.emptyOutput_eq
    have hle := Terms.docFreqs_le hsums.each
    have htotal := hsums.total
    have hcount : ¬ UInt64.ofNat s.terms.length = 0 := by
      rw [← UInt64.toNat_inj, UInt64.toNat_ofNat_of_lt' h.count]
      exact fun hzero => hne (List.length_eq_zero_iff.mp hzero)
    have hsum : (UInt64.ofNat s.terms.docFreqs).toNat = s.terms.docFreqs :=
      UInt64.toNat_ofNat_of_lt' (show _ < 2 ^ 64 by omega)
    have hnone : (if s.hasFreqs then some (UInt64.ofNat s.terms.totalFreqs) else none).filter
        (· < UInt64.ofNat s.terms.docFreqs) = none := by
      split
      · rw [Option.filter_some, if_neg]
        rw [decide_eq_true_eq, UInt64.lt_iff_toNat_lt, hsum, UInt64.toNat_ofNat_of_lt' htotal]
        omega
      · rfl
    have hordered : ¬ (s.terms.getLast?.map (·.1)).getD [] < (s.terms.head?.map (·.1)).getD [] :=
      not_last_lt_first hrooted.increasing
    rw [summary, htree, FieldSummary.check]
    simp only [houtput, Option.getD_some]
    rw [if_neg hcount, if_neg r.location.encode_ne_nil, hsum, hnone]
    by_cases hexceeded : s.terms.Exceeded s.docs
    · rw [if_pos hexceeded, if_pos hexceeded.2]
    · rw [if_neg hexceeded, if_neg fun hlt => hexceeded ⟨hne, hlt⟩]
      exact if_neg hordered

/-- **The summary of a stored field can be read.** -/
theorem In.legible (hsizes : sizes.Valid) (h : s.In sizes stream index)
    (hsmall : s.terms.Small sizes) {infos : List FieldInfo}
    (hfind : infos.find? (·.number = s.info.number) = some s.info) :
    s.summary.Legible infos s.info := by
  have hfind' : infos.find? (·.number = s.summary.number) = some s.info := by
    rw [s.summary_number]
    exact hfind
  cases htree : s.tree with
  | none =>
    rw [summary, htree] at hfind' ⊢
    refine ⟨hfind', ?_, Nat.two_pow_pos 32, Nat.two_pow_pos 32, Nat.two_pow_pos 32⟩
    show (if s.hasFreqs then some (0 : UInt64) else none).isSome = s.hasFreqs
    cases s.hasFreqs <;> rfl
  | some tree =>
    obtain ⟨t, runs⟩ := tree
    obtain ⟨hrooted, -⟩ := h.rooted t runs htree
    obtain ⟨r, -, hsound, houtput⟩ := hrooted.emptyOutput_eq
    -- the first and the last term are among those that fit
    have hterm : ∀ x : Option (Bytes × TermState), (∀ t, x = some t → t ∈ s.terms) →
        ((x.map (·.1)).getD []).length < 2 ^ 32 := by
      intro x hx
      cases x with
      | none => decide
      | some t => exact Nat.lt_trans (hsmall.length_lt hsizes (hx t rfl)) (by decide)
    rw [summary, htree] at hfind' ⊢
    refine ⟨hfind', ?_, ?_, ?_, ?_⟩
    · show (if s.hasFreqs then some _ else none).isSome = s.hasFreqs
      cases s.hasFreqs <;> rfl
    · simp only [houtput, Option.getD_some]
      exact Nat.lt_of_le_of_lt (length_encode_location hsound.sliced) (by decide)
    · exact hterm _ fun t ht => List.mem_of_head? ht
    · exact hterm _ fun t ht => List.mem_of_getLast? ht

/-- **The directory accepts the summary** of a stored field. -/
theorem In.listed (hsizes : sizes.Valid) (h : s.In sizes stream index)
    (hsmall : s.terms.Small sizes) (hsums : s.terms.Summable) (hdocs : ¬ s.terms.Exceeded s.docs)
    {infos : List FieldInfo} (hfind : infos.find? (·.number = s.info.number) = some s.info) :
    s.summary.Listed infos := by
  refine (h.legible hsizes hsmall hfind).listed ?_
  rw [h.check_eq hsizes.two_le hsums, if_neg hdocs]

end StoredField

end Lexicon

import Lexicon.Proofs.Segment.Fields

/-!
# What is pending after any writes

A field writer can be asked to take anything. It refuses a term that does not sort after the last or
whose numbers are not in order, and takes what comes next all the same. In each state that it gets
into, its two tables agree (`Frontier.Tied`): what is pending, and where the entries of each prefix
of the last term start. Nothing that a step asks of them can fail then, so no call fails but those
that are to be refused (`verdicts`).

> **`pending_tied`** — after any writes the tables agree, what is pending stands for the accepted
> terms, and the field can be finished.
-/

namespace Lexicon

/-! ## The pending entries and the prefixes of the last term -/

/-- Each prefix of the last term knows where its entries start, and these are all entries with it.
Later prefixes start later. The entries are in order, and no block is at the front of another. -/
structure Frontier.Tied (f : Frontier) : Prop where
  starts : ∀ i < f.last.length, ∃ start, f.starts[i]? = some start ∧ start < f.pending.size ∧
    ∀ (place : Nat) (e : Entry), f.pending[place]? = some e →
      (start ≤ place ↔ f.last.take (i + 1) <+: e.key)
  later : ∀ i j start start', i ≤ j → j < f.last.length → f.starts[i]? = some start →
    f.starts[j]? = some start' → start ≤ start'
  increasing : f.pending.toList.Pairwise fun x y => x.key < y.key
  apart : ∀ (i j : Nat) (b : SubBlock) (e : Entry), i ≠ j → f.pending[i]? = some (.block b) →
    f.pending[j]? = some e → ¬ b.stem <+: e.key

/-- The place of an entry tells whether it starts with the string. -/
theorem Begins.le_iff {q : Bytes} {start place : Nat} {entries : List Entry} {e : Entry}
    (h : Begins q start entries) (he : entries[place]? = some e) : start ≤ place ↔ q <+: e.key := by
  obtain ⟨hplace, rfl⟩ := List.getElem?_eq_some_iff.mp he
  constructor
  · intro hle
    exact h.from' _ (List.mem_drop_iff_getElem.mpr ⟨place - start, by omega, by congr 1; omega⟩)
  · intro hpre
    by_contra hlt
    exact h.before _ (List.mem_take_iff_getElem.mpr ⟨place, by omega, rfl⟩) hpre

/-- The tables agree where all prefixes of the last term are open and the term is pending. -/
theorem Frontier.Ordered.tied {sizes : BlockSizes} {f : Frontier} {position : Nat}
    (h : f.Ordered sizes f.last.length position)
    (hlast : f.last ≠ [] → ∃ e ∈ f.pending.toList, e.key = f.last) : f.Tied := by
  have hget : ∀ place, f.pending[place]? = f.pending.toList[place]? := fun place =>
    Array.getElem?_toList.symm
  refine ⟨fun i hi => ?_, fun i j start start' hij hj hi' hj' => ?_, h.keys,
    fun i j b e hne hb he => ?_⟩
  · -- each prefix of the last term has an entry, the last term itself
    obtain ⟨start, hstart, hbegins⟩ := h.starts i hi
    obtain ⟨e, he, hkey⟩ := hlast (List.ne_nil_of_length_pos (by omega))
    obtain ⟨place, hplace⟩ := List.getElem?_of_mem he
    have hle := (hbegins.le_iff hplace).mpr (hkey ▸ List.take_prefix ..)
    have hlt := (List.getElem?_eq_some_iff.mp hplace).1
    rw [Array.length_toList] at hlt
    exact ⟨start, hstart, by omega, fun place e he => hbegins.le_iff (hget place ▸ he)⟩
  · -- a longer prefix starts no earlier
    obtain ⟨_, hs, hbegins⟩ := h.starts i (by omega)
    obtain ⟨_, hs', hbegins'⟩ := h.starts j hj
    obtain rfl := Option.some.inj (hi'.symm.trans hs)
    obtain rfl := Option.some.inj (hj'.symm.trans hs')
    by_cases hlt : start' < f.pending.toList.length
    · refine hbegins'.le_of_isPrefix hbegins ?_ hlt
      exact List.take_prefix_take_left (by omega)
    · have := hbegins.le
      omega
  · -- no other entry starts with the prefix of a block, be it before or after it
    rw [hget] at hb he
    obtain ⟨hi, hb⟩ := List.getElem?_eq_some_iff.mp hb
    obtain ⟨hj, rfl⟩ := List.getElem?_eq_some_iff.mp he
    rcases Nat.lt_or_gt_of_ne hne with hlt | hgt
    · have := List.pairwise_iff_getElem.mp h.apart i j hi hj hlt
      rw [hb] at this
      exact this rfl
    · -- An entry before the block sorts before all that starts with the block's prefix.
      have := List.pairwise_iff_getElem.mp h.keys j i hj hi hgt
      rw [hb] at this
      exact fun hpre => Bytes.not_lt_of_extends hpre this

/-! ## What is accepted -/

namespace FieldWriter

/-- What comes of a write, if these terms were accepted before: it is refused if it does not sort
after the last of them, or if its numbers are not in order. -/
def verdict (info : FieldInfo) (taken : Terms) (term : Bytes) (state : TermState) :
    Except Error Unit :=
  if taken ≠ [] ∧ ¬ taken.last < term then .error (.termOutOfOrder info.name term taken.last)
  else (state.normalized info.options.hasFreqs).check info.options.hasFreqs

/-- The terms accepted in the end, as they are kept, when `taken` are before the writes. -/
def acceptedFrom (info : FieldInfo) (taken : Terms) : Terms → Terms
  | [] => taken
  | (term, state) :: writes =>
    match verdict info taken term state with
    | .ok () => acceptedFrom info (taken ++ [(term, state.normalized info.options.hasFreqs)]) writes
    | .error _ => acceptedFrom info taken writes

/-- What comes of each write. -/
def verdictsFrom (info : FieldInfo) (taken : Terms) : Terms → List (Except Error Unit)
  | [] => []
  | (term, state) :: writes =>
    match verdict info taken term state with
    | .ok () =>
      .ok () :: verdictsFrom info (taken ++ [(term, state.normalized info.options.hasFreqs)]) writes
    | .error e => .error e :: verdictsFrom info taken writes

/-- The terms that are accepted of some writes. -/
def accepted (info : FieldInfo) (writes : Terms) : Terms := acceptedFrom info [] writes

/-- What comes of each of some writes. -/
def verdicts (info : FieldInfo) (writes : Terms) : List (Except Error Unit) :=
  verdictsFrom info [] writes

/-- Makes the writes one after the other, whatever comes of those before. A refused write leaves the
field writer as it was. -/
def attempts (f : FieldWriter) (w : Writer Memory) :
    Terms → List (Except Error Unit) × FieldWriter × Writer Memory
  | [] => ([], f, w)
  | (term, state) :: writes =>
    match f.write term state w with
    | .ok f w =>
      let (outcomes, f, w) := f.attempts w writes
      (.ok () :: outcomes, f, w)
    | .error e w =>
      let (outcomes, f, w) := f.attempts w writes
      (.error e :: outcomes, f, w)

theorem prefix_acceptedFrom (info : FieldInfo) (writes : Terms) :
    ∀ taken : Terms, ∃ more, acceptedFrom info taken writes = taken ++ more := by
  induction writes with
  | nil => exact fun taken => ⟨[], (List.append_nil taken).symm⟩
  | cons write writes ih =>
    intro taken
    obtain ⟨term, state⟩ := write
    rw [acceptedFrom]
    split
    · obtain ⟨more, hmore⟩ := ih (taken ++ [(term, state.normalized info.options.hasFreqs)])
      exact ⟨_, by rw [hmore, List.append_assoc]⟩
    · exact ih taken

/-- What is kept of an accepted term is in order by itself. -/
theorem Accepted.acceptedFrom {info : FieldInfo} (writes : Terms) :
    ∀ {taken : Terms}, Accepted info.options.hasFreqs taken →
      Accepted info.options.hasFreqs (acceptedFrom info taken writes) := by
  induction writes with
  | nil => exact id
  | cons write writes ih =>
    intro taken h
    obtain ⟨term, state⟩ := write
    rw [FieldWriter.acceptedFrom]
    split
    next hverdict =>
      refine ih (List.forall_mem_append.mpr ⟨h, List.forall_mem_singleton.mpr ?_⟩)
      rw [verdict] at hverdict
      split at hverdict
      next => cases hverdict
      next => exact hverdict
    next => exact ih h

variable {sizes : BlockSizes} {f : FieldWriter} {w : Writer Memory} {stream index directory : Bytes}
  {terms : Terms} {trace : List Run}

/-- A term that does not sort after the last is refused. -/
theorem write_misplaced {term : Bytes} {state : TermState} (hw : w.failed = false)
    (horder : 0 < f.terms ∧ ¬ f.frontier.last < term) :
    f.write term state w = .error (.termOutOfOrder f.info.name term f.frontier.last) w := by
  rw [write, bind_ok (Writer.ensureSound_ok hw), if_pos horder]
  rfl

/-- The last term is still pending. -/
theorem Inv.mem_last (h : f.Inv sizes stream terms trace) (hroom : Room terms)
    (hne : f.frontier.last ≠ []) : ∃ e ∈ f.frontier.pending.toList, e.key = f.frontier.last := by
  obtain ⟨runs, -, hstands⟩ := h.frontier.stands hroom
  rcases List.eq_nil_or_concat terms with rfl | ⟨front, t, rfl⟩
  · exact absurd h.last hne
  · have hlast : f.frontier.last = t.1 := by
      rw [h.last, List.concat_eq_append, Terms.last_concat]
    rcases hstands.mem_terms t (by simp) with hmem | ⟨b, hb, hpre⟩
    · exact ⟨_, hmem, hlast.symm⟩
    · -- A block with a prefix of the last term would be closed too early.
      have hclosed := (h.frontier.ordered.closed b hb).2
      rw [List.take_length, hlast] at hclosed
      exact absurd hpre hclosed

/-- What sorts after the last term sorts after all. -/
theorem Inv.last_lt (h : f.Inv sizes stream terms trace) (hroom : Room terms) {term : Bytes}
    (hlast : terms = [] ∨ terms.last < term) : ∀ t ∈ terms, t.1 < term := by
  refine (h.increasing hroom).of_last (fun _ _ => List.lt_trans) fun t ht => ?_
  have hlt := hlast.resolve_left (List.ne_nil_of_mem (List.mem_of_getLast? ht))
  rwa [Terms.last, ht] at hlt

/-- A write that is to be refused is refused, and changes nothing. -/
theorem Inv.write_error (h : f.Inv sizes stream terms trace) (hroom : Room terms)
    (hw : w.failed = false) {term : Bytes} {state : TermState} {e : Error}
    (hverdict : verdict f.info terms term state = .error e) :
    f.write term state w = .error e w := by
  have hzero := h.terms_eq_zero_iff hroom
  rw [verdict] at hverdict
  split at hverdict
  next hmisplaced =>
    obtain ⟨hne, hlt⟩ := hmisplaced
    obtain rfl := Except.error.inj hverdict
    rw [← h.last] at hlt ⊢
    refine write_misplaced hw ⟨?_, hlt⟩
    rw [UInt64.pos_iff_ne_zero]
    exact fun hnone => hne (hzero.mp hnone)
  next hplaced =>
    refine write_refused hw (fun hmisplaced => hplaced ⟨fun hnil => ?_, ?_⟩) hverdict
    · rw [hzero.mpr hnil] at hmisplaced
      exact absurd hmisplaced.1 (by decide)
    · rw [← h.last]
      exact hmisplaced.2

/-- **Any writes are made**: each is taken or refused as it should be, and the field writer keeps to
its invariant with what was accepted. -/
theorem attempts_spec (hsizes : sizes.Valid) (writes : Terms) :
    ∀ {f : FieldWriter} {w : Writer Memory} {stream : Bytes} {terms : Terms} {trace : List Run},
      f.Inv sizes stream terms trace → w.Holds stream index directory → w.sizes = sizes →
      Room (acceptedFrom f.info terms writes) →
      ∃ f' w' items new, f.attempts w writes = (verdictsFrom f.info terms writes, f', w') ∧
        Writer.Wrote sizes f.info.options.hasFreqs w w' items new ∧ f'.info = f.info ∧
        f'.Inv sizes (stream ++ Item.encodeAll items)
          (acceptedFrom f.info terms writes) (trace ++ new) := by
  induction writes with
  | nil =>
    intro f w stream terms trace h _ _ _
    refine ⟨f, w, [], [], rfl, .refl w, rfl, ?_⟩
    rw [Item.encodeAll_nil, List.append_nil, List.append_nil]
    exact h
  | cons write writes ih =>
    intro f w stream terms trace h hw hsame hroom
    obtain ⟨term, state⟩ := write
    have hnow : Room terms := by
      obtain ⟨more, hmore⟩ := prefix_acceptedFrom f.info ((term, state) :: writes) terms
      rw [hmore] at hroom
      exact hroom.of_append
    rw [acceptedFrom] at hroom
    rw [attempts, verdictsFrom, acceptedFrom]
    cases hverdict : verdict f.info terms term state with
    | error e =>
      -- the write is refused, and leaves all as it was
      rw [hverdict] at hroom
      obtain ⟨f', w', items, new, hattempts, hwrote, hinfo, hinv⟩ := ih h hw hsame hroom
      refine ⟨f', w', items, new, ?_, hwrote, hinfo, hinv⟩
      rw [h.write_error hnow hw.sound hverdict]
      simp only [hattempts]
    | ok =>
      rw [hverdict] at hroom
      rw [verdict] at hverdict
      split at hverdict
      next => cases hverdict
      next hplaced =>
        -- the term is in its place, and there is room for what it completes
        have hlast : terms = [] ∨ terms.last < term := by
          by_contra hmisplaced
          exact hplaced (not_or.mp hmisplaced)
        rcases write_spec hsizes h hw hsame (h.last_lt hnow hlast) hverdict with
          ⟨f₁, w₁, items, new, hwrite, hwrote, hinfo, -, hinv⟩ | ⟨hfull, -⟩
        · rw [← hinfo] at hinv hroom
          obtain ⟨f', w', items', new', hattempts, hwrote', hinfo', hinv'⟩ :=
            ih hinv (hwrote.holds hw) (hwrote.sizes_eq.trans hsame) hroom
          rw [hinfo] at hattempts hwrote' hinfo' hinv'
          refine ⟨f', w', items ++ items', new ++ new', ?_, hwrote.trans hwrote', hinfo', ?_⟩
          · rw [hwrite]
            simp only [hattempts]
          · rw [Item.encodeAll_append, ← List.append_assoc, ← List.append_assoc]
            exact hinv'
        · exact absurd hnow hfull

/-- **The tables of a field writer agree in every state**, and what is pending stands for the
accepted terms. So nothing is ever out of place: each write is taken or refused as it should be, and
the field can be finished. -/
theorem pending_tied (hsizes : w.sizes.check = .ok ()) (hw : w.Holds stream index directory)
    (info : FieldInfo) (writes : Terms) (hroom : Room (accepted info writes)) :
    ∃ (f : FieldWriter) (w' : Writer Memory) (items : List Item) (emitted runs : List Run),
      attempts { info } w writes = (verdicts info writes, f, w') ∧
      w'.Holds (stream ++ Item.encodeAll items) index directory ∧
      f.frontier.last = (accepted info writes).last ∧ f.frontier.Tied ∧
      Emits w.sizes info.options.hasFreqs ⟨stream.length, w.codec, []⟩ emitted
        ⟨stream.length + (Item.encodeAll items).length, w'.codec, items⟩ ∧ runs.Perm emitted ∧
      Stands w.sizes (InStream info.options.hasFreqs (stream ++ Item.encodeAll items))
        f.frontier.pending.toList (accepted info writes) runs ∧
      ∃ summary w'', f.finish w' = .ok summary w'' := by
  have hvalid := BlockSizes.valid_of_check hsizes
  obtain ⟨f, w', items, new, hattempts, hwrote, hinfo, hinv⟩ :=
    attempts_spec hvalid writes (inv_new hvalid info stream) hw rfl hroom
  have hw' := hwrote.holds hw
  obtain ⟨runs, hperm, hstands⟩ := hinv.frontier.stands hroom
  obtain ⟨w₂, items', new', -, -, hfinished⟩ :=
    finish_spec hvalid hinv hw' hwrote.sizes_eq
  obtain ⟨s, out, -, hfinish⟩ := hfinished hroom
  rw [hinfo] at hstands
  exact ⟨f, w', items, new, runs, hattempts, hw', hinv.last,
    hinv.frontier.ordered.tied (hinv.mem_last hroom), hwrote.emits hw, hperm, hstands,
    _, _, hfinish⟩

/-- The terms `abc`, `acc`, `acea`, `aceb`, `acee` and `adff`, with `ac` after `acc` and with `acea`
first more often in documents than in all. -/
def mixed : Terms :=
  [([97, 98, 99], ⟨⟨1, 1⟩, []⟩), ([97, 99, 99], ⟨⟨1, 1⟩, []⟩), ([97, 99], ⟨⟨1, 1⟩, []⟩),
    ([97, 99, 101, 97], ⟨⟨3, 2⟩, []⟩), ([97, 99, 101, 97], ⟨⟨1, 1⟩, []⟩),
    ([97, 99, 101, 98], ⟨⟨1, 1⟩, []⟩), ([97, 99, 101, 101], ⟨⟨1, 1⟩, []⟩),
    ([97, 100, 102, 102], ⟨⟨1, 1⟩, []⟩)]

/-- With two entries to a block, the run of `ace` is in a block already when `adff` is pending. -/
theorem pending_tied_mixed :
    (⟨2, 4⟩ : BlockSizes).check = .ok () ∧ (fresh ⟨2, 4⟩).Holds [] [] [] ∧
      Room (accepted ⟨"body", 0, .freqs⟩ mixed) ∧
      ∃ (f : FieldWriter) (w' : Writer Memory) (stream : Bytes) (runs : List Run),
        attempts { info := ⟨"body", 0, .freqs⟩ } (fresh ⟨2, 4⟩) mixed
          = ([.ok (), .ok (), .error (.termOutOfOrder "body" [97, 99] [97, 99, 99]),
              .error (.invalidTermState (.totalBelowDocuments 2 3)), .ok (), .ok (), .ok (),
              .ok ()],
            f, w') ∧
        f.frontier.last = [97, 100, 102, 102] ∧ f.frontier.Tied ∧
        Stands ⟨2, 4⟩ (InStream true stream) f.frontier.pending.toList
          (accepted ⟨"body", 0, .freqs⟩ mixed) runs ∧
        ∃ summary w'', f.finish w' = .ok summary w'' := by
  have hsizes : (⟨2, 4⟩ : BlockSizes).check = .ok () := rfl
  have hroom : Room (accepted ⟨"body", 0, .freqs⟩ mixed) := by decide
  obtain ⟨f, w', items, emitted, runs, hattempts, -, hlast, htied, -, -, hstands, hfinish⟩ :=
    pending_tied hsizes (holds_fresh ⟨2, 4⟩) ⟨"body", 0, .freqs⟩ mixed hroom
  exact ⟨hsizes, holds_fresh _, hroom, f, w', _, runs, hattempts, hlast, htied, hstands, hfinish⟩

end FieldWriter

end Lexicon

import Mathlib.Data.List.Perm.Subperm
import Lexicon.Proofs.Block.Index

/-!
# What entries stand for

An entry is a term, or the block that a run was written as, whose entries are terms and blocks
again. `Stands sizes stored entries terms runs` unfolds this to the end: in order, the entries
stand for these terms and hold these runs, each of which is `stored` and `Run.Sound`.

> **`Stands.increasing`** — entries in order stand for terms in order;
> **`Stands.denotes`** — the index of a block maps the prefixes of its runs to where they are;
> **`Stands.keyBytes_le`** — and these prefixes are shorter in all than the terms.
-/

namespace Lexicon

/-- Terms with what is known of them. -/
abbrev Terms := List (Bytes × TermState)

/-- The keys of terms. -/
def Terms.keys (terms : Terms) : List Bytes := terms.map (·.1)

/-- The terms as a field keeps them. -/
def Terms.kept (terms : Terms) (hasFreqs : Bool) : Terms :=
  terms.map fun t => (t.1, t.2.normalized hasFreqs)

/-- A run as it was written. -/
structure Run where
  /-- What all its entries start with. -/
  stem : Bytes
  pieces : List Piece

namespace Run

def entries (r : Run) : List Entry := r.pieces.flatMap (·.entries)

/-- Where its first block starts. -/
def fp (r : Run) : Nat := (r.pieces.head?.map (·.fp)).getD 0

def location (r : Run) : Location := Piece.location r.stem.length r.entries.length r.pieces

/-- A run is found at its first block. -/
theorem location_fp (r : Run) : r.location.fp = r.fp := by
  rw [location, fp]
  cases r.pieces <;> rfl

/-- What the index maps to what for the run. -/
def pair (r : Run) : Bytes × Bytes := (r.stem, r.location.encode)

end Run

/-- Number of blocks. -/
def blockCount (runs : List Run) : Nat := (runs.map fun r => r.pieces.length).sum

theorem blockCount_cons (r : Run) (runs : List Run) :
    blockCount (r :: runs) = r.pieces.length + blockCount runs := by
  simp [blockCount]

theorem blockCount_append (a b : List Run) : blockCount (a ++ b) = blockCount a + blockCount b := by
  simp [blockCount]

/-- Where the blocks start. -/
def offsets (runs : List Run) : List Nat := runs.flatMap fun r => r.pieces.map (·.fp)

theorem offsets_append (a b : List Run) : offsets (a ++ b) = offsets a ++ offsets b :=
  List.flatMap_append

theorem offsets_singleton (r : Run) : offsets [r] = r.pieces.map (·.fp) :=
  List.flatMap_singleton ..

/-- Runs in another order have their blocks at the same offsets. -/
theorem offsets_perm {a b : List Run} (h : a.Perm b) : (offsets a).Perm (offsets b) :=
  h.flatMap_right _

/-- Each block has its offset. -/
theorem length_offsets (runs : List Run) : (offsets runs).length = blockCount runs := by
  simp [offsets, blockCount, List.length_flatMap]

/-- The offsets are those of the blocks of the runs. -/
theorem mem_offsets {runs : List Run} {n : Nat} :
    n ∈ offsets runs ↔ ∃ r ∈ runs, ∃ p ∈ r.pieces, p.fp = n := by
  simp [offsets]

/-- Blocks that start at different places of a stream are no more than its bytes. -/
theorem blockCount_le {runs : List Run} {stop : Nat} (hnodup : (offsets runs).Nodup)
    (hbefore : ∀ n ∈ offsets runs, n < stop) : blockCount runs ≤ stop := by
  have hsub : offsets runs ⊆ List.range stop := fun n hn => List.mem_range.mpr (hbefore n hn)
  have hle := (hnodup.subperm hsub).length_le
  rwa [length_offsets, List.length_range] at hle

/-- No run is without a block. -/
theorem length_le_blockCount {runs : List Run} (h : ∀ r ∈ runs, r.pieces ≠ []) :
    runs.length ≤ blockCount runs := by
  induction runs with
  | nil => exact Nat.zero_le _
  | cons r runs ih =>
    obtain ⟨hfirst, hrest⟩ := List.forall_mem_cons.mp h
    have := List.length_pos_iff.mpr hfirst
    have := ih hrest
    rw [blockCount_cons, List.length_cons]
    omega

/-- The blocks start one after the other from `start` on, and before `stop`. -/
structure Placed (runs : List Run) (start stop : Nat) : Prop where
  increasing : (offsets runs).Pairwise (· < ·)
  between : ∀ n ∈ offsets runs, start ≤ n ∧ n < stop

theorem placed_nil (start stop : Nat) : Placed [] start stop := ⟨.nil, by simp [offsets]⟩

/-- Runs that were written one after the other lie one after the other. -/
theorem Placed.append {a b : List Run} {start mid stop : Nat} (h : Placed a start mid)
    (h' : Placed b mid stop) (hstart : start ≤ mid) (hstop : mid ≤ stop) :
    Placed (a ++ b) start stop := by
  refine ⟨?_, fun n hn => ?_⟩
  · rw [offsets_append]
    refine List.pairwise_append.mpr ⟨h.increasing, h'.increasing, fun n hn m hm => ?_⟩
    exact Nat.lt_of_lt_of_le (h.between n hn).2 (h'.between m hm).1
  · rw [offsets_append] at hn
    rcases List.mem_append.mp hn with hn | hn
    · have := h.between n hn
      omega
    · have := h'.between n hn
      omega

/-- No two blocks are at the same offset. -/
theorem Placed.nodup {runs : List Run} {start stop : Nat} (h : Placed runs start stop) :
    (offsets runs).Nodup := h.increasing.imp Nat.ne_of_lt

/-- A block is not at the front of the entries after it. -/
def Apart (entries : List Entry) : Prop :=
  entries.Pairwise fun x y => x.isTerm = false → ¬ x.key <+: y.key

/-- Number of bytes of all terms. -/
def termBytes (terms : Terms) : Nat := (terms.map fun t => t.1.length).sum

theorem termBytes_cons (t : Bytes × TermState) (terms : Terms) :
    termBytes (t :: terms) = t.1.length + termBytes terms := by
  simp [termBytes]

theorem termBytes_append (a b : Terms) : termBytes (a ++ b) = termBytes a + termBytes b := by
  simp [termBytes]

/-- Number of bytes of the keys of entries. -/
def keyLengths (entries : List Entry) : Nat := (entries.map fun e => e.key.length).sum

theorem keyLengths_cons (e : Entry) (entries : List Entry) :
    keyLengths (e :: entries) = e.key.length + keyLengths entries := by
  simp [keyLengths]

/-- Entries with keys of some length have so many bytes at least. -/
theorem length_mul_le_keyLengths {n : Nat} {entries : List Entry}
    (h : ∀ e ∈ entries, n ≤ e.key.length) : entries.length * n ≤ keyLengths entries := by
  induction entries with
  | nil => simp [keyLengths]
  | cons e entries ih =>
    have hfirst := h e (List.mem_cons_self ..)
    have hrest := ih fun x hx => h x (List.mem_cons_of_mem _ hx)
    rw [keyLengths_cons, List.length_cons, Nat.succ_mul]
    omega

/-- Number of entries that start with a string. -/
def share (q : Bytes) (entries : List Entry) : Nat := entries.countP fun e => q.isPrefixOf e.key

/-- The share of a prefix counts each entry that starts with it. -/
theorem share_cons (q : Bytes) (e : Entry) (entries : List Entry) :
    share q (e :: entries) = share q entries + if q.isPrefixOf e.key then 1 else 0 :=
  List.countP_cons

theorem share_append (q : Bytes) (a b : List Entry) :
    share q (a ++ b) = share q a + share q b := List.countP_append

/-- Entries that all start with a prefix are all in its share. -/
theorem share_of_all {q : Bytes} {entries : List Entry} (h : ∀ e ∈ entries, q <+: e.key) :
    share q entries = entries.length := by
  rw [share, List.countP_eq_length]
  exact fun e he => List.isPrefixOf_iff_prefix.mpr (h e he)

/-- Entries that do not start with a prefix have no share. -/
theorem share_of_none (q : Bytes) (entries : List Entry) (h : ∀ e ∈ entries, ¬ q <+: e.key) :
    share q entries = 0 := by
  rw [share, List.countP_eq_zero]
  exact fun e he hq => h e he (List.isPrefixOf_iff_prefix.mp hq)

/-- The bounds for the blocks of a run. -/
structure Run.Bounded (sizes : BlockSizes) (r : Run) : Prop where
  le_max : ∀ p ∈ r.pieces, p.entries.length ≤ sizes.max
  min_le : ∀ p ∈ r.pieces.dropLast, sizes.min ≤ p.entries.length
  enough : r.stem ≠ [] → sizes.min ≤ r.entries.length

/-- All that is so of a run by itself. -/
structure Run.Sound (sizes : BlockSizes) (r : Run) : Prop extends r.Bounded sizes where
  nonempty : r.pieces ≠ []
  fps : r.pieces.Pairwise (·.fp < ·.fp)
  sliced : Sliced r.stem.length r.entries r.pieces
  ordered : r.entries.Pairwise fun x y => x.key < y.key
  apart : Apart r.entries
  within : ∀ e ∈ r.entries, e.Within r.stem r.fp
  /-- No run of a longer prefix was left over in it. -/
  few : ∀ q : Bytes, r.stem.length < q.length → share q r.entries < sizes.min

/-- Entries, the terms they stand for, and the runs in them, each before those below it. -/
inductive Stands (sizes : BlockSizes) (stored : Run → Prop) :
    List Entry → Terms → List Run → Prop
  | nil : Stands sizes stored [] [] []
  | term {key : Bytes} {state : TermState} {rest : List Entry} {terms : Terms} {runs : List Run}
      (others : Stands sizes stored rest terms runs) :
      Stands sizes stored (.term key state :: rest) ((key, state) :: terms) runs
  | block {b : SubBlock} {r : Run} {inside terms : Terms} {rest : List Entry}
      {below runs : List Run} (stem : b.stem = r.stem) (fp : b.fp = r.fp) (proper : r.stem ≠ [])
      (sound : r.Sound sizes) (here : stored r) (inner : Stands sizes stored r.entries inside below)
      (index : b.index.Denotes ((r :: below).map Run.pair))
      (others : Stands sizes stored rest terms runs) :
      Stands sizes stored (.block b :: rest) (inside ++ terms) (r :: below ++ runs)

/-- The run of all terms, and the runs in it. -/
def Rooted (sizes : BlockSizes) (stored : Run → Prop) (index : Transducer) (terms : Terms)
    (runs : List Run) : Prop :=
  ∃ r below, runs = r :: below ∧ r.stem = [] ∧ r.Sound sizes ∧ stored r ∧
    Stands sizes stored r.entries terms below ∧ index.Denotes (runs.map Run.pair)

namespace Stands

variable {sizes : BlockSizes} {stored stored' : Run → Prop} {entries entries' : List Entry}
  {terms terms' : Terms} {runs runs' : List Run}

/-- Entries stand for the same under a wider notion of what is stored. -/
theorem mono (h : Stands sizes stored entries terms runs) :
    (∀ r ∈ runs, stored r → stored' r) → Stands sizes stored' entries terms runs := by
  induction h with
  | nil => intro _; exact .nil
  | term _ ih => intro hstored; exact .term (ih hstored)
  | block stem fp proper sound here _ index _ ihInner ihOthers =>
    intro hstored
    obtain ⟨hfirst, hothers⟩ := List.forall_mem_append.mp hstored
    obtain ⟨hself, hbelow⟩ := List.forall_mem_cons.mp hfirst
    exact .block stem fp proper sound (hself here) (ihInner hbelow) index (ihOthers hothers)

/-- Entries one after the other stand for their terms one after the other. -/
theorem append (h : Stands sizes stored entries terms runs)
    (h' : Stands sizes stored entries' terms' runs') :
    Stands sizes stored (entries ++ entries') (terms ++ terms') (runs ++ runs') := by
  induction h with
  | nil => exact h'
  | term _ ih => exact .term ih
  | block stem fp proper sound here inner index _ _ ihOthers =>
    rw [List.append_assoc, List.append_assoc]
    exact .block stem fp proper sound here inner index ihOthers

/-- What the front of entries stands for comes first. -/
theorem split (front : List Entry) :
    ∀ {terms : Terms} {runs : List Run}, Stands sizes stored (front ++ entries) terms runs →
      ∃ terms₁ terms₂ runs₁ runs₂, terms = terms₁ ++ terms₂ ∧ runs = runs₁ ++ runs₂ ∧
        Stands sizes stored front terms₁ runs₁ ∧ Stands sizes stored entries terms₂ runs₂ := by
  induction front with
  | nil => intro terms runs h; exact ⟨[], terms, [], runs, rfl, rfl, .nil, h⟩
  | cons e front ih =>
    intro terms runs h
    cases h with
    | term others =>
      obtain ⟨terms₁, terms₂, runs₁, runs₂, rfl, rfl, h₁, h₂⟩ := ih others
      exact ⟨_ :: terms₁, terms₂, runs₁, runs₂, rfl, rfl, .term h₁, h₂⟩
    | block stem fp proper sound here inner index others =>
      obtain ⟨terms₁, terms₂, runs₁, runs₂, rfl, rfl, h₁, h₂⟩ := ih others
      refine ⟨_, terms₂, _, runs₂, ?_, ?_, .block stem fp proper sound here inner index h₁, h₂⟩
      · rw [List.append_assoc]
      · rw [List.append_assoc]

/-- A term is an entry itself, or one of a block that it starts with. -/
theorem mem_terms (h : Stands sizes stored entries terms runs) :
    ∀ t ∈ terms, .term t.1 t.2 ∈ entries ∨ ∃ b, .block b ∈ entries ∧ b.stem <+: t.1 := by
  induction h with
  | nil => simp
  | term _ ih =>
    intro t ht
    rcases List.mem_cons.mp ht with rfl | ht
    · exact .inl (List.mem_cons_self ..)
    · rcases ih t ht with hterm | ⟨b, hb, hpre⟩
      · exact .inl (List.mem_cons_of_mem _ hterm)
      · exact .inr ⟨b, List.mem_cons_of_mem _ hb, hpre⟩
  | @block b r inside terms rest below runs stem _ _ sound _ _ _ _ ihInner ihOthers =>
    intro t ht
    rcases List.mem_append.mp ht with ht | ht
    · refine .inr ⟨b, List.mem_cons_self .., ?_⟩
      rw [stem]
      rcases ihInner t ht with hterm | ⟨b', hb', hpre⟩
      · exact (sound.within _ hterm).prefix_key
      · exact (sound.within _ hb').prefix_key.trans hpre
    · rcases ihOthers t ht with hterm | ⟨b', hb', hpre⟩
      · exact .inl (List.mem_cons_of_mem _ hterm)
      · exact .inr ⟨b', List.mem_cons_of_mem _ hb', hpre⟩

/-- Every term starts with the key of an entry. -/
theorem exists_key (h : Stands sizes stored entries terms runs) {t : Bytes × TermState}
    (ht : t ∈ terms) : ∃ e ∈ entries, e.key <+: t.1 := by
  rcases h.mem_terms t ht with hterm | ⟨b, hb, hpre⟩
  · exact ⟨_, hterm, List.prefix_refl _⟩
  · exact ⟨_, hb, hpre⟩

/-- Every run is that of a block among the entries, or below one. -/
theorem exists_block (h : Stands sizes stored entries terms runs) :
    ∀ r ∈ runs, ∃ b, .block b ∈ entries ∧ b.stem <+: r.stem := by
  induction h with
  | nil => simp
  | term _ ih =>
    intro r hr
    obtain ⟨b, hb, hpre⟩ := ih r hr
    exact ⟨b, List.mem_cons_of_mem _ hb, hpre⟩
  | @block b r inside terms rest below runs stem _ _ sound _ _ _ _ ihInner ihOthers =>
    intro r' hr'
    rcases List.mem_append.mp hr' with hr' | hr'
    · refine ⟨b, List.mem_cons_self .., ?_⟩
      rw [stem]
      rcases List.mem_cons.mp hr' with rfl | hr'
      · exact List.prefix_refl _
      · obtain ⟨b', hb', hpre⟩ := ihInner r' hr'
        exact (sound.within _ hb').prefix_key.trans hpre
    · obtain ⟨b', hb', hpre⟩ := ihOthers r' hr'
      exact ⟨b', List.mem_cons_of_mem _ hb', hpre⟩

/-- The prefix of a run sorts before those of the runs in it. -/
theorem stem_lt {r : Run} {below : List Run} (hsound : r.Sound sizes)
    (h : Stands sizes stored r.entries terms below) : ∀ r' ∈ below, r.stem < r'.stem := by
  intro r' hr'
  obtain ⟨b, hb, hpre⟩ := h.exists_block r' hr'
  obtain ⟨hlonger, hstem, -⟩ := hsound.within _ hb
  refine Bytes.lt_of_lt_of_extends (Bytes.lt_of_extends hstem fun heq => ?_) hpre
  rw [heq] at hlonger
  exact Nat.lt_irrefl _ hlonger

/-- **Entries in order stand for terms in order.** -/
theorem increasing (h : Stands sizes stored entries terms runs) :
    (entries.Pairwise fun x y => x.key < y.key) → Apart entries →
      terms.Pairwise fun s t => s.1 < t.1 := by
  induction h with
  | nil => intro _ _; exact .nil
  | @term key state rest terms runs others ih =>
    intro hordered hapart
    rw [List.pairwise_cons] at hordered
    refine List.pairwise_cons.mpr ⟨fun t ht => ?_, ih hordered.2 (List.pairwise_cons.mp hapart).2⟩
    obtain ⟨e, he, hpre⟩ := others.exists_key ht
    exact Bytes.lt_of_lt_of_extends (hordered.1 e he) hpre
  | @block b r inside terms rest below runs stem _ _ sound _ inner _ others ihInner ihOthers =>
    intro hordered hapart
    rw [List.pairwise_cons] at hordered
    have hapart' := List.pairwise_cons.mp hapart
    refine List.pairwise_append.mpr ⟨ihInner sound.ordered sound.apart,
      ihOthers hordered.2 hapart'.2, fun s hs t ht => ?_⟩
    obtain ⟨e, he, hpre⟩ := inner.exists_key hs
    obtain ⟨e', he', hpre'⟩ := others.exists_key ht
    refine Bytes.lt_of_prefixes (hordered.1 e' he') (hapart'.1 e' he' rfl) ?_ hpre'
    show b.stem <+: s.1
    rw [stem]
    exact (sound.within e he).prefix_key.trans hpre

/-- The prefixes of the runs are in order. -/
theorem increasing_runs (h : Stands sizes stored entries terms runs) :
    (entries.Pairwise fun x y => x.key < y.key) → Apart entries →
      runs.Pairwise fun r r' => r.stem < r'.stem := by
  induction h with
  | nil => intro _ _; exact .nil
  | term _ ih =>
    intro hordered hapart
    exact ih (List.pairwise_cons.mp hordered).2 (List.pairwise_cons.mp hapart).2
  | @block b r inside terms rest below runs stem _ _ sound _ inner _ others ihInner ihOthers =>
    intro hordered hapart
    rw [List.pairwise_cons] at hordered
    have hapart' := List.pairwise_cons.mp hapart
    have hfirst : ∀ r' ∈ r :: below, b.stem <+: r'.stem := by
      intro r' hr'
      rw [stem]
      rcases List.mem_cons.mp hr' with rfl | hr'
      · exact List.prefix_refl _
      · obtain ⟨b', hb', hpre⟩ := inner.exists_block r' hr'
        exact (sound.within _ hb').prefix_key.trans hpre
    rw [List.pairwise_append, List.pairwise_cons]
    refine ⟨⟨inner.stem_lt sound, ihInner sound.ordered sound.apart⟩,
      ihOthers hordered.2 hapart'.2, fun r₁ hr₁ r₂ hr₂ => ?_⟩
    obtain ⟨b', hb', hpre⟩ := others.exists_block r₂ hr₂
    exact Bytes.lt_of_prefixes (hordered.1 _ hb') (hapart'.1 _ hb' rfl) (hfirst r₁ hr₁) hpre

/-- **The indexes of the blocks map the prefixes of the runs** to where they are. -/
theorem denotes (h : Stands sizes stored entries terms runs) :
    ∃ parts, List.Forall₂ Transducer.Denotes (subIndexes entries) parts ∧
      parts.flatten = runs.map Run.pair := by
  induction h with
  | nil => exact ⟨[], .nil, rfl⟩
  | term _ ih => exact ih
  | @block b r inside terms rest below runs _ _ _ _ _ _ index _ _ ihOthers =>
    obtain ⟨parts, hparts, hflatten⟩ := ihOthers
    refine ⟨(r :: below).map Run.pair :: parts, .cons index hparts, ?_⟩
    rw [List.flatten_cons, hflatten, List.map_append]

/-- A location takes a bounded number of bytes. -/
theorem length_pair_le (h : Stands sizes stored entries terms runs) :
    ∀ p ∈ runs.map Run.pair, p.2.length ≤ locationRoom := by
  induction h with
  | nil => simp
  | term _ ih => exact ih
  | block _ _ _ sound _ _ _ _ ihInner ihOthers =>
    intro p hp
    rw [List.map_append, List.map_cons] at hp
    rcases List.mem_append.mp hp with hp | hp
    · rcases List.mem_cons.mp hp with rfl | hp
      · exact length_encode_location sound.sliced
      · exact ihInner p hp
    · exact ihOthers p hp

/-- **The prefixes of the runs are shorter in all than the terms**, since every run has two
entries. -/
theorem keyBytes_le (hmin : 2 ≤ sizes.min) (h : Stands sizes stored entries terms runs) :
    Transducer.keyBytes (runs.map Run.pair) + keyLengths entries ≤ termBytes terms := by
  induction h with
  | nil => exact Nat.le_refl _
  | term _ ih =>
    rw [keyLengths_cons, termBytes_cons]
    show _ ≤ List.length _ + _
    simp only [Entry.key]
    omega
  | @block b r inside terms rest below runs stem _ proper sound _ _ _ _ ihInner ihOthers =>
    -- at least two entries have the prefix, which pays for its copy in the index and as a key
    have henough := sound.enough proper
    have hlengths : 2 * r.stem.length ≤ keyLengths r.entries := by
      refine Nat.le_trans (Nat.mul_le_mul_right _ (Nat.le_trans hmin henough)) ?_
      exact length_mul_le_keyLengths fun e he => (sound.within e he).prefix_key.length_le
    rw [List.map_append, List.map_cons, Transducer.keyBytes_append, Transducer.keyBytes_cons,
      keyLengths_cons, termBytes_append]
    show r.stem.length + _ + _ + (b.stem.length + _) ≤ _
    rw [stem]
    omega

end Stands

/-- The prefixes of all runs are in order. -/
theorem Rooted.increasing_runs {sizes : BlockSizes} {stored : Run → Prop} {index : Transducer}
    {terms : Terms} {runs : List Run} (h : Rooted sizes stored index terms runs) :
    runs.Pairwise fun r r' => r.stem < r'.stem := by
  obtain ⟨r, below, rfl, -, hsound, -, inner, -⟩ := h
  exact List.pairwise_cons.mpr
    ⟨inner.stem_lt hsound, inner.increasing_runs hsound.ordered hsound.apart⟩

/-- A root leads to the same under a wider notion of what is stored. -/
theorem Rooted.mono {sizes : BlockSizes} {stored stored' : Run → Prop} {index : Transducer}
    {terms : Terms} {runs : List Run} (h : Rooted sizes stored index terms runs)
    (hstored : ∀ r ∈ runs, stored r → stored' r) : Rooted sizes stored' index terms runs := by
  obtain ⟨r, below, rfl, hstem, hsound, hhere, inner, hdenotes⟩ := h
  obtain ⟨hself, hbelow⟩ := List.forall_mem_cons.mp hstored
  exact ⟨r, below, rfl, hstem, hsound, hself hhere, inner.mono hbelow, hdenotes⟩

end Lexicon

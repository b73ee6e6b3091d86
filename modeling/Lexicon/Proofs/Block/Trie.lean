import Lexicon.Proofs.Block.Tree

/-!
# The tree of blocks is that of the trie

Which prefixes become runs can be said without any frontier. The trie of the terms gives every
prefix a size: one for the prefix as a term, and for each byte after it the size of the longer
prefix, or one where that is enough for blocks of its own (`Trie.size`). A prefix whose size is
enough is sealed.

> **`Rooted.mem_stems_iff`** — the runs of a field are those of the sealed prefixes;
> **`Run.Sound.level`** — and a run has as entries what is between its prefix and the next sealed
> ones.
-/

namespace Lexicon

namespace Trie

/-- Every byte, once. -/
def labels : List UInt8 := (List.range 256).map UInt8.ofNat

theorem mem_labels (b : UInt8) : b ∈ labels := by
  refine List.mem_map.mpr ⟨b.toNat, ?_, UInt8.ofNat_toNat⟩
  exact List.mem_range.mpr b.toNat_lt

theorem nodup_labels : labels.Nodup := by
  rw [labels, List.Nodup, List.pairwise_map]
  refine List.nodup_range.imp_of_mem fun {i j} hi hj hne heq => hne ?_
  rw [List.mem_range] at hi hj
  have hsame := congrArg UInt8.toNat heq
  rwa [UInt8.toNat_ofNat_of_lt' hi, UInt8.toNat_ofNat_of_lt' hj] at hsame

/-- What a string of the given size counts for in the one that is a byte shorter. -/
def collapse (min n : Nat) : Nat := if min ≤ n then 1 else n

/-- Length of the longest key. -/
def height (keys : List Bytes) : Nat := keys.foldr (fun key rest => max key.length rest) 0

theorem length_le_height {keys : List Bytes} {key : Bytes} (h : key ∈ keys) :
    key.length ≤ height keys := by
  induction keys with
  | nil => simp at h
  | cons k keys ih =>
    rw [height, List.foldr_cons]
    rcases List.mem_cons.mp h with rfl | h
    · exact Nat.le_max_left ..
    · exact Nat.le_trans (ih h) (Nat.le_max_right ..)

/-- How many entries are below a string in the trie of the keys, where what is enough for blocks of
its own stands as one entry. -/
def size (min : Nat) (keys : List Bytes) (p : Bytes) : Nat :=
  if ∃ key ∈ keys, p <+: key then
    (if p ∈ keys then 1 else 0)
      + (labels.map fun b => collapse min (size min keys (p ++ [b]))).sum
  else 0
termination_by height keys + 1 - p.length
decreasing_by
  next h =>
    obtain ⟨key, hkey, hpre⟩ := h
    have := length_le_height hkey
    have := hpre.length_le
    rw [List.length_append, List.length_singleton]
    omega

theorem size_eq_zero {min : Nat} {keys : List Bytes} {p : Bytes}
    (h : ∀ key ∈ keys, ¬ p <+: key) : size min keys p = 0 := by
  rw [size, if_neg]
  rintro ⟨key, hkey, hpre⟩
  exact h key hkey hpre

/-- **The sizes are those of the recursion over the trie**, for every string. -/
theorem size_eq {min : Nat} (hmin : 0 < min) (keys : List Bytes) (p : Bytes) :
    size min keys p = (if p ∈ keys then 1 else 0)
      + (labels.map fun b => collapse min (size min keys (p ++ [b]))).sum := by
  by_cases h : ∃ key ∈ keys, p <+: key
  · rw [size, if_pos h]
  · have hnone : ∀ key ∈ keys, ¬ p <+: key := fun key hkey hpre => h ⟨key, hkey, hpre⟩
    have hzero : ∀ n ∈ labels.map fun b => collapse min (size min keys (p ++ [b])), n = 0 := by
      intro n hn
      obtain ⟨b, -, rfl⟩ := List.mem_map.mp hn
      rw [size_eq_zero fun key hkey hpre => hnone key hkey ((List.prefix_append ..).trans hpre),
        collapse, if_neg (by omega)]
    rw [size_eq_zero hnone, if_neg fun hp => hnone p hp (List.prefix_refl p),
      List.sum_eq_zero_iff_forall_eq_nat.mpr hzero]

/-- A prefix that gets a run: the empty one does in any case. -/
def Sealed (min : Nat) (keys : List Bytes) (p : Bytes) : Prop := p = [] ∨ min ≤ size min keys p

end Trie

/-! ## Counting entries by the next byte -/

theorem sum_map_add_countP {α : Type} (l : List α) (f : α → Nat) (p : α → Bool) :
    (l.map fun x => f x + if p x then 1 else 0).sum = (l.map f).sum + l.countP p := by
  induction l with
  | nil => rfl
  | cons x l ih =>
    rw [List.map_cons, List.sum_cons, ih, List.map_cons, List.sum_cons, List.countP_cons]
    omega

/-- A string that extends another goes on with just one byte. -/
theorem countP_labels (q key : Bytes) :
    (Trie.labels.countP fun b => (q ++ [b]).isPrefixOf key)
      = if q <+: key ∧ key ≠ q then 1 else 0 := by
  by_cases hq : q <+: key
  · obtain ⟨rest, rfl⟩ := hq
    cases rest with
    | nil =>
      rw [List.append_nil, if_neg (by simp), List.countP_eq_zero]
      intro b _ hb
      have := (List.isPrefixOf_iff_prefix.mp hb).length_le
      rw [List.length_append, List.length_singleton] at this
      omega
    | cons c rest =>
      have hsame : ∀ b ∈ Trie.labels, (q ++ [b]).isPrefixOf (q ++ c :: rest) = true ↔
          (b == c) = true := by
        intro b _
        rw [List.isPrefixOf_iff_prefix, List.prefix_append_right_inj, beq_iff_eq]
        constructor
        · exact fun h => (List.cons_prefix_cons.mp h).1
        · rintro rfl
          exact ⟨rest, rfl⟩
      rw [List.countP_congr hsame, if_pos (by simp)]
      show Trie.labels.count c = 1
      rw [Trie.nodup_labels.count, if_pos (Trie.mem_labels c)]
  · rw [if_neg fun h => hq h.1, List.countP_eq_zero]
    intro b _ hb
    exact hq ((List.prefix_append ..).trans (List.isPrefixOf_iff_prefix.mp hb))

/-- Entries that start with a string are that string, or go on with some byte. -/
theorem share_eq_sum (q : Bytes) (entries : List Entry) :
    share q entries = (entries.map Entry.key).count q
      + (Trie.labels.map fun b => share (q ++ [b]) entries).sum := by
  induction entries with
  | nil =>
    have hzero : ∀ n ∈ Trie.labels.map fun b => share (q ++ [b]) [], n = 0 := by
      intro n hn
      obtain ⟨b, -, rfl⟩ := List.mem_map.mp hn
      rfl
    rw [List.sum_eq_zero_iff_forall_eq_nat.mpr hzero]
    rfl
  | cons e entries ih =>
    simp only [share_cons]
    rw [ih, sum_map_add_countP, countP_labels, List.map_cons, List.count_cons]
    by_cases hq : q <+: e.key
    · rw [if_pos (List.isPrefixOf_iff_prefix.mpr hq)]
      by_cases hkey : e.key = q
      · rw [if_pos (beq_iff_eq.mpr hkey), if_neg (fun h => h.2 hkey)]
        omega
      · rw [if_neg (fun h => hkey (beq_iff_eq.mp h)), if_pos ⟨hq, hkey⟩]
        omega
    · have hkey : ¬ (e.key == q) = true := by
        rw [beq_iff_eq]
        rintro rfl
        exact hq (List.prefix_refl _)
      rw [if_neg (fun h => hq (List.isPrefixOf_iff_prefix.mp h)), if_neg hkey,
        if_neg (fun h => hq h.1)]
      omega

/-! ## Every run is that of a sealed prefix -/

/-- No other entry starts with the prefix of a block. -/
theorem share_block {entries : List Entry} {b : SubBlock}
    (hordered : entries.Pairwise fun x y => x.key < y.key) (hapart : Apart entries)
    (hb : .block b ∈ entries) : share b.stem entries = 1 := by
  induction entries with
  | nil => simp at hb
  | cons e entries ih =>
    obtain ⟨hfirst, hordered⟩ := List.pairwise_cons.mp hordered
    obtain ⟨hfirst', hapart⟩ := List.pairwise_cons.mp hapart
    rw [share_cons]
    rcases List.mem_cons.mp hb with rfl | hb
    · have hself : b.stem.isPrefixOf (Entry.block b).key = true :=
        List.isPrefixOf_iff_prefix.mpr (List.prefix_refl _)
      have hnone := share_of_none b.stem entries fun x hx => hfirst' x hx rfl
      rw [if_pos hself, hnone]
    · have hno : ¬ b.stem.isPrefixOf e.key = true := fun hpre =>
        Bytes.not_lt_of_extends (List.isPrefixOf_iff_prefix.mp hpre) (hfirst _ hb)
      rw [if_neg hno, ih hordered hapart hb]

/-- The terms among all that start with a string. -/
def Covers (all : Terms) (stem : Bytes) (terms : Terms) : Prop :=
  ∀ t : Bytes × TermState, stem <+: t.1 → (t ∈ all ↔ t ∈ terms)

/-- The terms among all that start with the key of an entry. -/
def CoversAll (all : Terms) (entries : List Entry) (terms : Terms) : Prop :=
  ∀ t : Bytes × TermState, (∃ e ∈ entries, e.key <+: t.1) → (t ∈ all ↔ t ∈ terms)

variable {sizes : BlockSizes} {stored : Run → Prop} {entries : List Entry} {all terms : Terms}
  {runs : List Run}

namespace Stands

/-- Below every entry there is a term. -/
theorem exists_term (hmin : 2 ≤ sizes.min) (h : Stands sizes stored entries terms runs) :
    ∀ e ∈ entries, ∃ t ∈ terms, e.key <+: t.1 := by
  induction h with
  | nil => simp
  | @term key state rest terms runs _ ih =>
    intro e he
    rcases List.mem_cons.mp he with rfl | he
    · exact ⟨(key, state), List.mem_cons_self .., List.prefix_refl _⟩
    · obtain ⟨t, ht, hpre⟩ := ih e he
      exact ⟨t, List.mem_cons_of_mem _ ht, hpre⟩
  | @block b r inside terms rest below runs stem _ proper sound _ _ _ _ ihInner ihOthers =>
    intro e he
    rcases List.mem_cons.mp he with rfl | he
    · have henough := sound.enough proper
      obtain ⟨x, hx⟩ := List.exists_mem_of_length_pos (show 0 < r.entries.length by omega)
      obtain ⟨t, ht, hpre⟩ := ihInner x hx
      refine ⟨t, List.mem_append_left _ ht, ?_⟩
      show b.stem <+: t.1
      rw [stem]
      exact (sound.within x hx).prefix_key.trans hpre
    · obtain ⟨t, ht, hpre⟩ := ihOthers e he
      exact ⟨t, List.mem_append_right _ ht, hpre⟩

/-- Entries that are terms stand for themselves. -/
theorem mem_of_term {key : Bytes} {state : TermState} (h : Stands sizes stored entries terms runs)
    (hterm : .term key state ∈ entries) : (key, state) ∈ terms := by
  induction h with
  | nil => simp at hterm
  | term _ ih =>
    rcases List.mem_cons.mp hterm with heq | hterm
    · cases heq
      exact List.mem_cons_self ..
    · exact List.mem_cons_of_mem _ (ih hterm)
  | block _ _ _ _ _ _ _ _ _ ihOthers =>
    rcases List.mem_cons.mp hterm with heq | hterm
    · cases heq
    · exact List.mem_append_right _ (ihOthers hterm)

/-- The terms of a block are apart from those of the entries after it. -/
theorem not_mem_others {e : Entry} (h : Stands sizes stored entries terms runs)
    (hlt : ∀ x ∈ entries, e.key < x.key) (hno : ∀ x ∈ entries, ¬ e.key <+: x.key)
    {t : Bytes × TermState} (hpre : e.key <+: t.1) : t ∉ terms := by
  intro ht
  obtain ⟨x, hx, hpre'⟩ := h.exists_key ht
  exact List.lt_irrefl _ (Bytes.lt_of_prefixes (hlt x hx) (hno x hx) hpre hpre')

/-- A string that no block starts is a term just where it is an entry. -/
theorem mem_keys_iff (h : Stands sizes stored entries terms runs) {p : Bytes}
    (hfree : ∀ b, .block b ∈ entries → ¬ b.stem <+: p) :
    p ∈ terms.keys ↔ p ∈ entries.map Entry.key := by
  rw [Terms.keys, List.mem_map, List.mem_map]
  constructor
  · rintro ⟨t, ht, rfl⟩
    rcases h.mem_terms t ht with hterm | ⟨b, hb, hpre⟩
    · exact ⟨_, hterm, rfl⟩
    · exact absurd hpre (hfree b hb)
  · rintro ⟨e, he, rfl⟩
    cases e with
    | term key state => exact ⟨_, h.mem_of_term he, rfl⟩
    | block b => exact absurd (List.prefix_refl _) (hfree b he)

end Stands

theorem Covers.mem_keys {stem : Bytes} (h : Covers all stem terms) {p : Bytes} (hp : stem <+: p) :
    p ∈ all.keys ↔ p ∈ terms.keys := by
  simp only [Terms.keys, List.mem_map]
  constructor
  · rintro ⟨t, ht, rfl⟩
    exact ⟨t, (h t hp).mp ht, rfl⟩
  · rintro ⟨t, ht, rfl⟩
    exact ⟨t, (h t hp).mpr ht, rfl⟩

/-- What the first entry, a term, stands for can be left out. -/
theorem CoversAll.of_term {key : Bytes} {state : TermState} (hlt : ∀ x ∈ entries, key < x.key)
    (h : CoversAll all (.term key state :: entries) ((key, state) :: terms)) :
    CoversAll all entries terms := by
  rintro t ⟨e, he, hpre⟩
  rw [h t ⟨e, List.mem_cons_of_mem _ he, hpre⟩, List.mem_cons]
  refine ⟨fun hmem => hmem.resolve_left ?_, .inr⟩
  rintro rfl
  exact Bytes.not_lt_of_extends hpre (hlt e he)

/-- The terms of a block, and those of the entries after it. -/
theorem CoversAll.of_block {b : SubBlock} {r : Run} {inside : Terms} {below : List Run}
    (hlt : ∀ x ∈ entries, b.stem < x.key) (hno : ∀ x ∈ entries, ¬ b.stem <+: x.key)
    (hsound : r.Sound sizes) (hstem : b.stem = r.stem)
    (inner : Stands sizes stored r.entries inside below)
    (others : Stands sizes stored entries terms runs)
    (h : CoversAll all (.block b :: entries) (inside ++ terms)) :
    Covers all r.stem inside ∧ CoversAll all entries terms := by
  rw [← hstem]
  refine ⟨fun t hpre => ?_, ?_⟩
  · have hout : t ∉ terms := others.not_mem_others (e := .block b) hlt hno hpre
    rw [h t ⟨_, List.mem_cons_self .., hpre⟩, List.mem_append]
    exact ⟨fun hmem => hmem.resolve_right hout, .inl⟩
  · rintro t ⟨e, he, hpre⟩
    rw [h t ⟨e, List.mem_cons_of_mem _ he, hpre⟩, List.mem_append]
    refine ⟨fun hmem => hmem.resolve_left fun hin => ?_, .inr⟩
    obtain ⟨x, hx, hpre'⟩ := inner.exists_key hin
    have hblock : b.stem <+: t.1 := by
      rw [hstem]
      exact (hsound.within x hx).prefix_key.trans hpre'
    exact List.lt_irrefl _ (Bytes.lt_of_prefixes (hlt e he) (hno e he) hblock hpre)

/-- All below the prefix of a run is below that of an entry of it. -/
theorem Covers.coversAll {r : Run} (hsound : r.Sound sizes) (h : Covers all r.stem terms) :
    CoversAll all r.entries terms := by
  rintro t ⟨e, he, hpre⟩
  exact h t ((hsound.within e he).prefix_key.trans hpre)

namespace Run.Sound

variable {r : Run}

/-- **The size of a string that no block starts is the number of entries that start with it**, if
the blocks are those of sealed prefixes. -/
theorem size_eq_share (hmin : 2 ≤ sizes.min) (hsound : r.Sound sizes)
    (h : Stands sizes stored r.entries terms runs) (hcovers : Covers all r.stem terms)
    (hbig : ∀ b, .block b ∈ r.entries → sizes.min ≤ Trie.size sizes.min all.keys b.stem)
    (p : Bytes) (hp : r.stem <+: p) (hfree : ∀ b, .block b ∈ r.entries → ¬ b.stem <+: p) :
    Trie.size sizes.min all.keys p = share p r.entries := by
  induction p using Trie.size.induct all.keys with
  | case1 p _ ih =>
    have hcount : (r.entries.map Entry.key).count p = if p ∈ all.keys then 1 else 0 := by
      have hnodup : (r.entries.map Entry.key).Nodup := by
        rw [List.Nodup, List.pairwise_map]
        exact hsound.ordered.imp Bytes.ne_of_lt
      rw [hnodup.count]
      simp only [hcovers.mem_keys hp, h.mem_keys_iff hfree]
    have hbelow : ∀ b ∈ Trie.labels, Trie.collapse sizes.min
        (Trie.size sizes.min all.keys (p ++ [b])) = share (p ++ [b]) r.entries := by
      intro label _
      have hp' : r.stem <+: p ++ [label] := hp.trans (List.prefix_append ..)
      by_cases hblock : ∃ b, .block b ∈ r.entries ∧ b.stem <+: p ++ [label]
      · -- the longer string is sealed: it counts as one, as its block does
        obtain ⟨b, hb, hpre⟩ := hblock
        rcases List.prefix_concat_iff.mp hpre with heq | hshorter
        · rw [← heq, Trie.collapse, if_pos (hbig b hb), share_block hsound.ordered hsound.apart hb]
        · exact absurd hshorter (hfree b hb)
      · -- it is not, for no longer string has entries enough in the run
        have hfree' : ∀ b, .block b ∈ r.entries → ¬ b.stem <+: p ++ [label] :=
          fun b hb hpre => hblock ⟨b, hb, hpre⟩
        have hlonger : r.stem.length < (p ++ [label]).length := by
          have := hp.length_le
          rw [List.length_append, List.length_singleton]
          omega
        have hfew := hsound.few _ hlonger
        rw [Trie.collapse, ih label hp' hfree', if_neg (by omega)]
    rw [Trie.size_eq (by omega), share_eq_sum, hcount, List.map_congr_left hbelow]
  | case2 p hnone =>
    -- no term starts with the string, and each entry stands for some
    rw [Trie.size, if_neg hnone, eq_comm, share, List.countP_eq_zero]
    intro e he hpre
    obtain ⟨t, ht, hpre'⟩ := h.exists_term hmin e he
    have hall := (hcovers t ((hsound.within e he).prefix_key.trans hpre')).mpr ht
    exact hnone ⟨t.1, List.mem_map_of_mem hall, (List.isPrefixOf_iff_prefix.mp hpre).trans hpre'⟩

/-- A longer prefix of enough size is below a block. -/
theorem exists_block_of_le_size (hmin : 2 ≤ sizes.min) (hsound : r.Sound sizes)
    (h : Stands sizes stored r.entries terms runs) (hcovers : Covers all r.stem terms)
    (hbig : ∀ b, .block b ∈ r.entries → sizes.min ≤ Trie.size sizes.min all.keys b.stem)
    {p : Bytes} (hp : r.stem <+: p) (hlonger : r.stem.length < p.length)
    (hsize : sizes.min ≤ Trie.size sizes.min all.keys p) :
    ∃ b, .block b ∈ r.entries ∧ b.stem <+: p := by
  refine Classical.byContradiction fun hnone => ?_
  have hshare := hsound.size_eq_share hmin h hcovers hbig p hp fun b hb hpre => hnone ⟨b, hb, hpre⟩
  have hfew := hsound.few p hlonger
  omega

/-- The prefix of a run is of enough size. -/
theorem le_size (hmin : 2 ≤ sizes.min) (hsound : r.Sound sizes) (hproper : r.stem ≠ [])
    (h : Stands sizes stored r.entries terms runs) (hcovers : Covers all r.stem terms)
    (hbig : ∀ b, .block b ∈ r.entries → sizes.min ≤ Trie.size sizes.min all.keys b.stem) :
    sizes.min ≤ Trie.size sizes.min all.keys r.stem := by
  have hfree : ∀ b, .block b ∈ r.entries → ¬ b.stem <+: r.stem := by
    intro b hb hpre
    have hlonger := (hsound.within _ hb).1
    have := hpre.length_le
    omega
  have hall : share r.stem r.entries = r.entries.length :=
    share_of_all fun e he => (hsound.within e he).prefix_key
  rw [hsound.size_eq_share hmin h hcovers hbig _ (List.prefix_refl _) hfree, hall]
  exact hsound.enough hproper

/-- A string that is longer than the prefix of a run is of enough size just where a run below it has
it as prefix. -/
theorem le_size_iff (hmin : 2 ≤ sizes.min) (hsound : r.Sound sizes)
    (h : Stands sizes stored r.entries terms runs) (hcovers : Covers all r.stem terms)
    (hbig : ∀ b, .block b ∈ r.entries → sizes.min ≤ Trie.size sizes.min all.keys b.stem)
    (hruns : ∀ p, (∃ b, .block b ∈ r.entries ∧ b.stem <+: p) →
      (sizes.min ≤ Trie.size sizes.min all.keys p ↔ p ∈ runs.map Run.stem))
    {p : Bytes} (hp : r.stem <+: p) (hlonger : r.stem.length < p.length) :
    sizes.min ≤ Trie.size sizes.min all.keys p ↔ p ∈ runs.map Run.stem := by
  constructor
  · intro hsize
    exact (hruns p (hsound.exists_block_of_le_size hmin h hcovers hbig hp hlonger hsize)).mp hsize
  · intro hmem
    obtain ⟨r', hr', rfl⟩ := List.mem_map.mp hmem
    exact (hruns _ (h.exists_block r' hr')).mpr hmem

end Run.Sound

/-- The runs of a block have prefixes that start with its own, and no others do. -/
theorem Stands.isPrefix_iff {b : SubBlock} {r : Run} {below : List Run} {inside : Terms}
    (hlt : ∀ x ∈ entries, b.stem < x.key) (hno : ∀ x ∈ entries, ¬ b.stem <+: x.key)
    (hsound : r.Sound sizes) (hstem : b.stem = r.stem)
    (inner : Stands sizes stored r.entries inside below)
    (others : Stands sizes stored entries terms runs) :
    (∀ r' ∈ r :: below, b.stem <+: r'.stem) ∧ ∀ r' ∈ runs, ¬ b.stem <+: r'.stem := by
  refine ⟨fun r' hr' => ?_, fun r' hr' hpre => ?_⟩
  · rw [hstem]
    rcases List.mem_cons.mp hr' with rfl | hr'
    · exact List.prefix_refl _
    · obtain ⟨b', hb', hpre⟩ := inner.exists_block r' hr'
      exact (hsound.within _ hb').prefix_key.trans hpre
  · obtain ⟨b', hb', hpre'⟩ := others.exists_block r' hr'
    exact List.lt_irrefl _ (Bytes.lt_of_prefixes (hlt _ hb') (hno _ hb') hpre hpre')

/-- The blocks among entries are those of prefixes of enough size, and below them all such prefixes
have a run. -/
theorem Stands.sealed (hmin : 2 ≤ sizes.min) (h : Stands sizes stored entries terms runs) :
    (entries.Pairwise fun x y => x.key < y.key) → Apart entries → CoversAll all entries terms →
      (∀ b, .block b ∈ entries → sizes.min ≤ Trie.size sizes.min all.keys b.stem) ∧
      ∀ p, (∃ b, .block b ∈ entries ∧ b.stem <+: p) →
        (sizes.min ≤ Trie.size sizes.min all.keys p ↔ p ∈ runs.map Run.stem) := by
  induction h with
  | nil => simp
  | @term key state rest terms runs others ih =>
    intro hordered hapart hcovers
    obtain ⟨hlt, hordered⟩ := List.pairwise_cons.mp hordered
    obtain ⟨hbig, hruns⟩ := ih hordered (List.pairwise_cons.mp hapart).2 (hcovers.of_term hlt)
    refine ⟨fun b hb => hbig b ?_, fun p ⟨b, hb, hpre⟩ => hruns p ⟨b, ?_, hpre⟩⟩
    · simpa using hb
    · simpa using hb
  | @block b r inside terms rest below runs stem _ proper sound _ inner _ others ihInner ihOthers =>
    intro hordered hapart hcovers
    obtain ⟨hlt, hordered⟩ := List.pairwise_cons.mp hordered
    obtain ⟨hno, hapart⟩ := List.pairwise_cons.mp hapart
    obtain ⟨hinside, hrest⟩ :=
      hcovers.of_block hlt (fun x hx => hno x hx rfl) sound stem inner others
    obtain ⟨hbigInner, hrunsInner⟩ := ihInner sound.ordered sound.apart (hinside.coversAll sound)
    obtain ⟨hbigRest, hrunsRest⟩ := ihOthers hordered hapart hrest
    have hbig := sound.le_size hmin proper inner hinside hbigInner
    refine ⟨fun b' hb' => ?_, fun p hp => ?_⟩
    · rcases List.mem_cons.mp hb' with heq | hb'
      · rw [Entry.block.inj heq, stem]
        exact hbig
      · exact hbigRest b' hb'
    · obtain ⟨hin, hout⟩ :=
        Stands.isPrefix_iff hlt (fun x hx => hno x hx rfl) sound stem inner others
      rw [List.map_append, List.mem_append]
      by_cases hhere : b.stem <+: p
      · -- the string is the prefix of the block or longer, so its run is here if anywhere
        have hnot : p ∉ runs.map Run.stem := by
          rintro hmem
          obtain ⟨r', hr', rfl⟩ := List.mem_map.mp hmem
          exact hout r' hr' hhere
        rw [or_iff_left hnot, List.map_cons, List.mem_cons]
        rw [stem] at hhere
        by_cases hsame : p = r.stem
        · rw [hsame]
          exact ⟨fun _ => .inl rfl, fun _ => hbig⟩
        · rw [or_iff_right hsame]
          refine sound.le_size_iff hmin inner hinside hbigInner hrunsInner hhere ?_
          exact Nat.lt_of_not_le fun hle => hsame (hhere.eq_of_length_le hle).symm
      · -- the string is below another block, and so is its run
        have hnot : p ∉ (r :: below).map Run.stem := by
          rintro hmem
          obtain ⟨r', hr', rfl⟩ := List.mem_map.mp hmem
          exact hhere (hin r' hr')
        rw [or_iff_right hnot]
        obtain ⟨b', hb', hpre⟩ := hp
        rcases List.mem_cons.mp hb' with heq | hb'
        · exact absurd (Entry.block.inj heq ▸ hpre) hhere
        · exact hrunsRest p ⟨b', hb', hpre⟩

/-! ## What the entries of a run are -/

/-- The entries of the run are what the trie has between its prefix and the next sealed ones. -/
structure Run.Level (sizes : BlockSizes) (all : Terms) (r : Run) : Prop where
  ordered : r.entries.Pairwise fun x y => x.key < y.key
  term_iff : ∀ key state, .term key state ∈ r.entries ↔ (key, state) ∈ all ∧ r.stem <+: key ∧
    ∀ q, Trie.Sealed sizes.min all.keys q → r.stem.length < q.length → ¬ q <+: key
  block_iff : ∀ q, (∃ b, .block b ∈ r.entries ∧ b.stem = q) ↔
    Trie.Sealed sizes.min all.keys q ∧ r.stem <+: q ∧ r.stem.length < q.length ∧
      ∀ q', Trie.Sealed sizes.min all.keys q' → r.stem.length < q'.length → q' <+: q → q' = q

/-- No other entry starts with the prefix of a block. -/
theorem eq_of_isPrefix {b : SubBlock} {e : Entry}
    (hordered : entries.Pairwise fun x y => x.key < y.key) (hapart : Apart entries)
    (hb : .block b ∈ entries) (he : e ∈ entries) (hpre : b.stem <+: e.key) : e = .block b := by
  induction entries with
  | nil => simp at hb
  | cons x entries ih =>
    obtain ⟨hfirst, hordered⟩ := List.pairwise_cons.mp hordered
    obtain ⟨hfirst', hapart⟩ := List.pairwise_cons.mp hapart
    rcases List.mem_cons.mp hb with rfl | hb'
    · rcases List.mem_cons.mp he with rfl | he
      · rfl
      · exact absurd hpre (hfirst' e he rfl)
    · rcases List.mem_cons.mp he with rfl | he
      · have hlt : e.key < b.stem := hfirst _ hb'
        exact absurd hlt (Bytes.not_lt_of_extends hpre)
      · exact ih hordered hapart hb' he

theorem Trie.Sealed.le_size {min : Nat} {keys : List Bytes} {stem q : Bytes}
    (h : Trie.Sealed min keys q) (hlonger : stem.length < q.length) :
    min ≤ Trie.size min keys q := by
  rcases h with rfl | h
  · exact absurd hlonger (Nat.not_lt_zero _)
  · exact h

/-- **The entries of a run are the terms and sealed prefixes right below its own.** -/
theorem Run.Sound.level {r : Run} (hmin : 2 ≤ sizes.min) (hsound : r.Sound sizes)
    (h : Stands sizes stored r.entries terms runs) (hcovers : Covers all r.stem terms)
    (hbig : ∀ b, .block b ∈ r.entries → sizes.min ≤ Trie.size sizes.min all.keys b.stem) :
    r.Level sizes all := by
  have hbelow : ∀ q key : Bytes, Trie.Sealed sizes.min all.keys q → r.stem.length < q.length →
      q <+: key → r.stem <+: key → ∃ b, .block b ∈ r.entries ∧ b.stem <+: q := by
    intro q key hsealed hlonger hq hkey
    have hstem := List.prefix_of_prefix_length_le hkey hq (Nat.le_of_lt hlonger)
    exact hsound.exists_block_of_le_size hmin h hcovers hbig hstem hlonger (hsealed.le_size hlonger)
  refine ⟨hsound.ordered, fun key state => ⟨fun hterm => ?_, ?_⟩, fun q => ⟨?_, ?_⟩⟩
  · have hstem : r.stem <+: key := (hsound.within _ hterm).prefix_key
    refine ⟨(hcovers _ hstem).mpr (h.mem_of_term hterm), hstem, fun q hsealed hlonger hq => ?_⟩
    obtain ⟨b, hb, hpre⟩ := hbelow q key hsealed hlonger hq hstem
    have := eq_of_isPrefix hsound.ordered hsound.apart hb hterm (hpre.trans hq)
    cases this
  · rintro ⟨hmem, hstem, hfree⟩
    rcases h.mem_terms _ ((hcovers _ hstem).mp hmem) with hterm | ⟨b, hb, hpre⟩
    · exact hterm
    · exact absurd hpre (hfree b.stem (.inr (hbig b hb)) (hsound.within _ hb).1)
  · rintro ⟨b, hb, rfl⟩
    obtain ⟨hlonger, hstem, -⟩ := hsound.within _ hb
    refine ⟨.inr (hbig b hb), hstem, hlonger, fun q hsealed hlonger' hq => ?_⟩
    obtain ⟨b', hb', hpre⟩ := hbelow q b.stem hsealed hlonger' hq hstem
    have hsame := eq_of_isPrefix hsound.ordered hsound.apart hb' hb (hpre.trans hq)
    rw [← Entry.block.inj hsame] at hpre
    exact hq.eq_of_length_le hpre.length_le
  · rintro ⟨hsealed, hstem, hlonger, hfirst⟩
    obtain ⟨b, hb, hpre⟩ := hbelow q q hsealed hlonger (List.prefix_refl q) hstem
    exact ⟨b, hb, hfirst b.stem (.inr (hbig b hb)) (hsound.within _ hb).1 hpre⟩

/-- Every run that entries hold is a level of the trie. -/
theorem Stands.levels (hmin : 2 ≤ sizes.min) (h : Stands sizes stored entries terms runs) :
    (entries.Pairwise fun x y => x.key < y.key) → Apart entries → CoversAll all entries terms →
      ∀ r ∈ runs, r.Level sizes all := by
  induction h with
  | nil => simp
  | term _ ih =>
    intro hordered hapart hcovers
    obtain ⟨hlt, hordered⟩ := List.pairwise_cons.mp hordered
    exact ih hordered (List.pairwise_cons.mp hapart).2 (hcovers.of_term hlt)
  | @block b r inside terms rest below runs stem _ proper sound _ inner _ others ihInner ihOthers =>
    intro hordered hapart hcovers r' hr'
    obtain ⟨hlt, hordered⟩ := List.pairwise_cons.mp hordered
    obtain ⟨hno, hapart⟩ := List.pairwise_cons.mp hapart
    obtain ⟨hinside, hrest⟩ :=
      hcovers.of_block hlt (fun x hx => hno x hx rfl) sound stem inner others
    rcases List.mem_append.mp hr' with hr' | hr'
    · rcases List.mem_cons.mp hr' with rfl | hr'
      · have hbig := (inner.sealed hmin sound.ordered sound.apart (hinside.coversAll sound)).1
        exact sound.level hmin inner hinside hbig
      · exact ihInner sound.ordered sound.apart (hinside.coversAll sound) r' hr'
    · exact ihOthers hordered hapart hrest r' hr'

/-- The runs that terms come to: each belongs to a sealed prefix, no two to the same one, and has
what the trie has right below it. -/
structure Levelled (sizes : BlockSizes) (terms : Terms) (runs : List Run) : Prop where
  once : (runs.map Run.stem).Nodup
  isSealed : ∀ r ∈ runs, Trie.Sealed sizes.min terms.keys r.stem
  level : ∀ r ∈ runs, r.Level sizes terms

theorem Levelled.perm {runs' : List Run} (h : Levelled sizes terms runs)
    (hperm : runs.Perm runs') : Levelled sizes terms runs' := by
  refine ⟨(hperm.map Run.stem).nodup_iff.mp h.once, fun r hr => ?_, fun r hr => ?_⟩
  · exact h.isSealed r (hperm.mem_iff.mpr hr)
  · exact h.level r (hperm.mem_iff.mpr hr)

theorem nodup_stems (h : runs.Pairwise fun r r' => r.stem < r'.stem) :
    (runs.map Run.stem).Nodup := by
  rw [List.Nodup, List.pairwise_map]
  exact h.imp Bytes.ne_of_lt

/-- **The runs that entries hold are levels of the trie of the terms they stand for.** -/
theorem Stands.levelled (hmin : 2 ≤ sizes.min) (h : Stands sizes stored entries terms runs)
    (hordered : entries.Pairwise fun x y => x.key < y.key) (hapart : Apart entries) :
    Levelled sizes terms runs := by
  have hcovers : CoversAll terms entries terms := fun _ _ => Iff.rfl
  refine ⟨nodup_stems (h.increasing_runs hordered hapart), fun r hr => .inr ?_,
    h.levels hmin hordered hapart hcovers⟩
  have hseals := (h.sealed hmin hordered hapart hcovers).2 r.stem (h.exists_block r hr)
  exact hseals.mpr (List.mem_map_of_mem hr)

/-! ## The runs of all terms -/

namespace Rooted

variable {index : Transducer}

/-- **The runs are those of the sealed prefixes.** -/
theorem mem_stems_iff (hmin : 2 ≤ sizes.min) (h : Rooted sizes stored index terms runs)
    (p : Bytes) :
    p ∈ runs.map Run.stem ↔ Trie.Sealed sizes.min terms.keys p := by
  obtain ⟨r, below, rfl, hstem, hsound, -, inner, -⟩ := h
  have hcovers : Covers terms r.stem terms := fun _ _ => Iff.rfl
  obtain ⟨hbig, hruns⟩ := inner.sealed hmin hsound.ordered hsound.apart (hcovers.coversAll hsound)
  rw [List.map_cons, List.mem_cons, hstem]
  refine or_congr_right' fun hproper => ?_
  refine (hsound.le_size_iff hmin inner hcovers hbig hruns ?_ ?_).symm
  · rw [hstem]
    exact List.nil_prefix
  · rw [hstem]
    exact List.length_pos_iff.mpr hproper

/-- Every run is a level of the trie. -/
theorem levels (hmin : 2 ≤ sizes.min) (h : Rooted sizes stored index terms runs) :
    ∀ r ∈ runs, r.Level sizes terms := by
  obtain ⟨r, below, rfl, -, hsound, -, inner, -⟩ := h
  have hcovers : Covers terms r.stem terms := fun _ _ => Iff.rfl
  have hcoversAll := hcovers.coversAll hsound
  intro r' hr'
  rcases List.mem_cons.mp hr' with rfl | hr'
  · have hbig := (inner.sealed hmin hsound.ordered hsound.apart hcoversAll).1
    exact hsound.level hmin inner hcovers hbig
  · exact inner.levels hmin hsound.ordered hsound.apart hcoversAll r' hr'

theorem levelled (hmin : 2 ≤ sizes.min) (h : Rooted sizes stored index terms runs) :
    Levelled sizes terms runs := by
  refine ⟨nodup_stems h.increasing_runs, fun r hr => ?_, h.levels hmin⟩
  exact (h.mem_stems_iff hmin r.stem).mp (List.mem_map_of_mem hr)

end Rooted

end Lexicon

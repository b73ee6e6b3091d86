import Lexicon.Proofs.Block.Emission

/-!
# The frontier keeps to its invariant

`Frontier.Ordered` ties the pending entries to the prefixes of the last term that are still open:
each of these knows where its entries start, and of any other prefix fewer entries than a block
needs are pending. Completing the longest open prefix keeps this (`closeDepth_spec`), and so does
taking a term that sorts after the last (`push_spec`).

`Frontier.Inv` adds what the entries stand for. Its two halves are kept apart because the first does
not depend on the indexes: it bounds the blocks even of a field whose index could not be built.
-/

namespace Lexicon

/-- From this place on, and only there, entries start with the string. -/
structure Begins (q : Bytes) (start : Nat) (entries : List Entry) : Prop where
  le : start ≤ entries.length
  before : ∀ e ∈ entries.take start, ¬ q <+: e.key
  from' : ∀ e ∈ entries.drop start, q <+: e.key

theorem share_singleton_le (q : Bytes) (e : Entry) : share q [e] ≤ 1 := List.countP_le_length

theorem Begins.share_eq {q : Bytes} {start : Nat} {entries : List Entry}
    (h : Begins q start entries) : share q entries = entries.length - start := by
  have hsplit := share_append q (entries.take start) (entries.drop start)
  rw [List.take_append_drop, share_of_none q _ h.before, share_of_all h.from', List.length_drop]
    at hsplit
  omega

/-- An open prefix starts where a longer one does, or before. -/
theorem Begins.le_of_isPrefix {p q : Bytes} {i : Nat} {entries : List Entry}
    (h : Begins q start entries) (h' : Begins p i entries) (hpq : p <+: q)
    (hlt : start < entries.length) : i ≤ start := by
  refine Nat.le_of_not_lt fun hgt => ?_
  have hdrop : entries[start] ∈ entries.drop start := by
    rw [List.drop_eq_getElem_cons hlt]
    exact List.mem_cons_self ..
  have htake : entries[start] ∈ entries.take i := by
    rw [List.mem_take_iff_getElem]
    exact ⟨start, by omega, rfl⟩
  exact h'.before _ htake (hpq.trans (h.from' _ hdrop))

/-- A string which no entry starts with could start behind the last. -/
theorem begins_length {q : Bytes} {entries : List Entry} (h : ∀ e ∈ entries, ¬ q <+: e.key) :
    Begins q entries.length entries := by
  refine ⟨Nat.le_refl _, fun e he => h e (List.mem_of_mem_take he), fun e he => ?_⟩
  rw [List.drop_length] at he
  simp at he

theorem Begins.take {q : Bytes} {start stop : Nat} {entries : List Entry}
    (h : Begins q start entries) (hle : start ≤ stop) (hstop : stop ≤ entries.length) :
    Begins q start (entries.take stop) := by
  refine ⟨?_, fun e he => ?_, fun e he => ?_⟩
  · rw [List.length_take]
    omega
  · rw [List.take_take, Nat.min_eq_left hle] at he
    exact h.before e he
  · rw [List.drop_take] at he
    exact h.from' e (List.mem_of_mem_take he)

theorem Begins.concat {q : Bytes} {start : Nat} {entries : List Entry} {e : Entry}
    (h : Begins q start entries) (he : q <+: e.key) : Begins q start (entries ++ [e]) := by
  refine ⟨?_, fun x hx => ?_, fun x hx => ?_⟩
  · have := h.le
    rw [List.length_append]
    omega
  · rw [List.take_append_of_le_length h.le] at hx
    exact h.before x hx
  · rw [List.drop_append_of_le_length h.le] at hx
    rcases List.mem_append.mp hx with hx | hx
    · exact h.from' x hx
    · rw [List.mem_singleton.mp hx]
      exact he

namespace Frontier

/-- The pending entries are in order, and all runs are completed but those of the first `depth`
bytes of the last term; blocks start before `position`. -/
structure Completed (sizes : BlockSizes) (f : Frontier) (depth position : Nat) : Prop where
  keys : f.pending.toList.Pairwise fun x y => x.key < y.key
  apart : Apart f.pending.toList
  depth_le : depth ≤ f.last.length
  closed : ∀ b, .block b ∈ f.pending.toList → b.fp < position ∧ ¬ b.stem <+: f.last.take depth
  few : ∀ q : Bytes, ¬ q <+: f.last.take depth → share q f.pending.toList < sizes.min

/-- The same, and it is known where the entries of each open prefix start. -/
structure Ordered (sizes : BlockSizes) (f : Frontier) (depth position : Nat) : Prop
    extends f.Completed sizes depth position where
  le_last : ∀ e ∈ f.pending.toList, ¬ f.last < e.key
  starts : ∀ i < depth, ∃ start, f.starts[i]? = some start ∧
    Begins (f.last.take (i + 1)) start f.pending.toList

/-- The frontier and all that it stands for: the terms taken so far, and the runs emitted into the
stream. -/
structure Inv (sizes : BlockSizes) (hasFreqs : Bool) (f : Frontier) (depth : Nat) (stream : Bytes)
    (terms : Terms) (trace : List Run) : Prop where
  ordered : f.Ordered sizes depth stream.length
  pending : terms = [] ↔ f.pending.toList = []
  stands : Room terms → ∃ runs, runs.Perm trace ∧
    Stands sizes (InStream hasFreqs stream) f.pending.toList terms runs

theorem inv_empty (sizes : BlockSizes) (hsizes : sizes.Valid) (hasFreqs : Bool) (stream : Bytes) :
    Inv sizes hasFreqs {} 0 stream [] [] := by
  have htwo := hsizes.two_le
  refine ⟨⟨⟨.nil, .nil, Nat.le_refl _, by simp, fun q _ => ?_⟩, by simp,
    fun i hi => absurd hi (Nat.not_lt_zero i)⟩, ⟨fun _ => rfl, fun _ => rfl⟩,
    fun _ => ⟨[], .refl _, .nil⟩⟩
  show share q [] < sizes.min
  rw [share, List.countP_nil]
  omega

/-! ## Completing a run -/

/-- What is pending once the entries from a place on stand as one. -/
theorem toList_take_push (entries : Array Entry) (start : Nat) (e : Entry) :
    ((entries.take start).push e).toList = entries.toList.take start ++ [e] := by
  rw [Array.toList_push, Array.take, Array.toList_extract, List.extract_eq_take_drop,
    List.drop_zero, Nat.sub_zero]

/-- The entries from `start` on, as one run. -/
theorem closeRun_eq {f : Frontier} {sizes : BlockSizes} {hasFreqs : Bool} {depth start : Nat}
    {out out' : Emission} {r : Run} (hstem : r.stem = f.last.take depth)
    (hdepth : r.stem.length = depth) (hwhole : depth = 0 → start = 0)
    (hlt : start < f.pending.toList.length) (hentries : r.entries = f.pending.toList.drop start)
    (h : r.Emitted sizes hasFreqs out out') :
    f.closeRun sizes hasFreqs depth start out
      = match compileIndex (Piece.writtenFrom r.stem r.entries.length none r.pieces) with
        | .ok b => .ok { f with pending := (f.pending.take start).push (.block b) } out'
        | .error e => .error e out' := by
  have hlist : (f.pending.extract start f.pending.size).toList = r.entries := by
    rw [hentries, Array.toList_extract, List.extract_eq_take_drop, ← Array.length_toList,
      ← List.length_drop, List.take_length]
  have hterm : depth ≤ f.last.length := by
    rw [← hdepth, hstem, List.length_take]
    exact Nat.min_le_right ..
  rw [Array.length_toList] at hlt
  subst hdepth
  rw [closeRun, if_neg (fun h => h.2 (hwhole h.1)), if_neg (Nat.not_le.mpr hlt),
    if_neg (Nat.not_lt.mpr hterm)]
  simp only [hlist]
  rw [← hstem, bind_ok h.written]
  cases compileIndex (Piece.writtenFrom r.stem r.entries.length none r.pieces) <;> rfl

/-- **The index of a run is built** where its terms leave room, and maps the runs in it. -/
theorem compileRun_spec {sizes : BlockSizes} {stored : Run → Prop} {r : Run} {inside : Terms}
    {below : List Run} (hmin : 2 ≤ sizes.min) (hroom : Room inside) (hsound : r.Sound sizes)
    (h : Stands sizes stored r.entries inside below) :
    ∃ b, compileIndex (Piece.writtenFrom r.stem r.entries.length none r.pieces) = .ok b ∧
      b.index.Denotes ((r :: below).map Run.pair) ∧
      b.index.nodes.length ≤ Transducer.arcRoom locationRoom * termBytes inside := by
  obtain ⟨parts, hparts, hflatten⟩ := h.denotes
  have hpair : (r.stem, (Piece.location r.stem.length r.entries.length r.pieces).encode)
      :: parts.flatten = (r :: below).map Run.pair := by
    rw [hflatten]
    rfl
  have hincreasing : Pairs.Increasing ((r :: below).map Run.pair) := by
    rw [Pairs.Increasing, List.pairwise_map]
    exact List.pairwise_cons.mpr
      ⟨h.stem_lt hsound, h.increasing_runs hsound.ordered hsound.apart⟩
  have hmost : ∀ p ∈ (r :: below).map Run.pair, p.2.length ≤ locationRoom := by
    intro p hp
    rcases List.mem_cons.mp hp with rfl | hp
    · exact length_encode_location hsound.sliced
    · exact h.length_pair_le p hp
  -- a prefix that is not empty is paid for by the keys of its entries, of which there are some
  have hbytes : Transducer.keyBytes ((r :: below).map Run.pair) ≤ termBytes inside := by
    have hkeys := h.keyBytes_le hmin
    rw [List.map_cons, Transducer.keyBytes_cons]
    have hstem : r.stem.length ≤ keyLengths r.entries := by
      by_cases hroot : r.stem = []
      · rw [hroot]
        exact Nat.zero_le _
      · have := length_mul_le_keyLengths fun e he => (hsound.within e he).prefix_key.length_le
        have hle : 1 * r.stem.length ≤ r.entries.length * r.stem.length :=
          Nat.mul_le_mul_right _ (by have := hsound.enough hroot; omega)
        omega
    show r.stem.length + _ ≤ _
    omega
  have hfits : Transducer.arcRoom locationRoom * Transducer.keyBytes ((r :: below).map Run.pair)
      ≤ 2 ^ 64 := Nat.le_trans (Nat.mul_le_mul_left _ hbytes) hroom
  rw [← hpair] at hincreasing hmost hfits
  obtain ⟨b, hcompile, hdenotes, hlength⟩ := compileIndex_spec (by decide) hsound.nonempty
    hsound.sliced hsound.fps hparts hincreasing hmost hfits
  rw [hpair] at hdenotes hlength
  exact ⟨b, hcompile, hdenotes, hlength.trans (Nat.mul_le_mul_left _ hbytes)⟩

/-- A prefix that is open for the last time is the longest. -/
theorem eq_take_of_isPrefix {q last : Bytes} {depth : Nat} (h : q <+: last.take (depth + 1))
    (hno : ¬ q <+: last.take depth) : q = last.take (depth + 1) := by
  obtain ⟨hq, hlength⟩ := List.prefix_take_iff.mp h
  have hlonger : depth < q.length := by
    refine Nat.lt_of_not_le fun hle => hno ?_
    exact List.prefix_take_iff.mpr ⟨hq, hle⟩
  refine h.eq_of_length_le ?_
  rw [List.length_take]
  omega

variable {sizes : BlockSizes} {f : Frontier} {depth position start : Nat}

theorem not_isPrefix_succ {q last : Bytes} (h : ¬ q <+: last.take (depth + 1)) :
    ¬ q <+: last.take depth := by
  intro hq
  obtain ⟨hlast, hlength⟩ := List.prefix_take_iff.mp hq
  exact h (List.prefix_take_iff.mpr ⟨hlast, Nat.le_succ_of_le hlength⟩)

/-- Where the longest open prefix has too few entries, they stay. -/
theorem Ordered.skip (h : f.Ordered sizes (depth + 1) position)
    (hbegins : Begins (f.last.take (depth + 1)) start f.pending.toList)
    (hfew : f.pending.toList.length - start < sizes.min) : f.Ordered sizes depth position := by
  refine ⟨⟨h.keys, h.apart, Nat.le_of_succ_le h.depth_le, fun b hb => ?_, fun q hq => ?_⟩,
    h.le_last, fun i hi => h.starts i (Nat.lt_succ_of_lt hi)⟩
  · obtain ⟨hfp, hclosed⟩ := h.closed b hb
    exact ⟨hfp, not_isPrefix_succ hclosed⟩
  · by_cases hopen : q <+: f.last.take (depth + 1)
    · rw [eq_take_of_isPrefix hopen hq, hbegins.share_eq]
      exact hfew
    · exact h.few q hopen

/-- **The run of the longest open prefix stands as one block from then on.** -/
theorem Ordered.close {position' : Nat} {b : SubBlock} (hmin : 2 ≤ sizes.min)
    (h : f.Ordered sizes (depth + 1) position)
    (hbegins : Begins (f.last.take (depth + 1)) start f.pending.toList)
    (hlt : start < f.pending.toList.length) (hstem : b.stem = f.last.take (depth + 1))
    (hfp : b.fp < position') (hposition : position ≤ position') :
    Ordered sizes { f with pending := (f.pending.take start).push (.block b) } depth position' := by
  have hlist := toList_take_push f.pending start (.block b)
  -- the first entry of the run stands for the block that replaces it
  obtain ⟨k, tail, hdrop⟩ : ∃ k tail, f.pending.toList.drop start = k :: tail :=
    List.exists_cons_of_ne_nil (by rw [Ne, List.drop_eq_nil_iff]; omega)
  have hk : k ∈ f.pending.toList.drop start := hdrop ▸ List.mem_cons_self ..
  have hkstem : b.stem <+: k.key := hstem ▸ hbegins.from' k hk
  have hlength : b.stem.length = depth + 1 := by
    have := h.depth_le
    rw [hstem, List.length_take]
    omega
  refine ⟨⟨?keys, ?apart, Nat.le_of_succ_le h.depth_le, ?closed, ?few⟩, ?last, ?starts⟩
  case keys =>
    rw [hlist]
    refine h.keys.take.concat fun e he => ?_
    have hbefore : ¬ b.stem <+: e.key := hstem ▸ hbegins.before e he
    exact Bytes.lt_of_lt_of_not_extends (h.keys.rel_of_mem_take_of_mem_drop he hk) hkstem hbefore
  case apart =>
    rw [hlist]
    refine h.apart.take.concat fun e he hblock hpre => ?_
    exact h.apart.rel_of_mem_take_of_mem_drop he hk hblock (hpre.trans hkstem)
  case last =>
    rw [hlist]
    intro e he
    rcases List.mem_append.mp he with he | he
    · exact h.le_last e (List.mem_of_mem_take he)
    · have hlast : b.stem <+: f.last := hstem ▸ List.take_prefix ..
      rw [List.mem_singleton.mp he]
      exact Bytes.not_lt_of_extends hlast
  case starts =>
    intro i hi
    obtain ⟨s, hs, hbegins'⟩ := h.starts i (Nat.lt_succ_of_lt hi)
    have hshorter : f.last.take (i + 1) <+: b.stem := by
      rw [hstem, List.prefix_take_iff]
      exact ⟨List.take_prefix .., by rw [List.length_take]; omega⟩
    have hle := hbegins.le_of_isPrefix hbegins' (hstem ▸ hshorter) hlt
    refine ⟨s, hs, ?_⟩
    rw [hlist]
    exact (hbegins'.take hle (Nat.le_of_lt hlt)).concat hshorter
  case closed =>
    rw [hlist]
    intro b' hb'
    rcases List.mem_append.mp hb' with hb' | hb'
    · obtain ⟨hfp', hclosed⟩ := h.closed b' (List.mem_of_mem_take hb')
      exact ⟨by omega, not_isPrefix_succ hclosed⟩
    · obtain rfl := Entry.block.inj (List.mem_singleton.mp hb')
      refine ⟨hfp, fun hpre => ?_⟩
      have := (List.prefix_take_iff.mp hpre).2
      omega
  case few =>
    rw [hlist]
    intro q hq
    rw [share_append]
    -- the prefix just completed has one entry left, its block; any other has lost none it needs
    by_cases hopen : q <+: f.last.take (depth + 1)
    · have hnone := share_of_none q (f.pending.toList.take start) (by
        rw [eq_take_of_isPrefix hopen hq]
        exact hbegins.before)
      have hone := share_singleton_le q (.block b)
      omega
    · have hnone := share_of_none q [.block b] fun e he => by
        rw [List.mem_singleton.mp he]
        exact fun hpre => hopen (hstem ▸ hpre)
      have hall := h.few q hopen
      rw [← List.take_append_drop start f.pending.toList, share_append] at hall
      omega

/-- The entries from a place on that share the first bytes of the last term belong into a run. -/
theorem Completed.within (h : f.Completed sizes depth position)
    (hbegins : Begins (f.last.take depth) start f.pending.toList) :
    ∀ e ∈ f.pending.toList.drop start, e.Within (f.last.take depth) position := by
  intro e he
  have hstem := hbegins.from' e he
  cases e with
  | term => exact hstem
  | block b =>
    obtain ⟨hfp, hclosed⟩ := h.closed b (List.mem_of_mem_drop he)
    refine ⟨Nat.lt_of_not_le fun hle => hclosed ?_, hstem, hfp⟩
    have hsame : f.last.take depth = b.stem := hstem.eq_of_length_le hle
    exact ⟨[], by rw [List.append_nil, hsame]⟩

theorem Completed.few_of_longer (h : f.Completed sizes depth position) {q : Bytes}
    (hq : (f.last.take depth).length < q.length) :
    share q (f.pending.toList.drop start) < sizes.min := by
  have hopen : ¬ q <+: f.last.take depth := fun hpre => by
    have := hpre.length_le
    omega
  have hall := h.few q hopen
  rw [← List.take_append_drop start f.pending.toList, share_append] at hall
  omega

/-- **The run that starts at a place is written**, and with room its index is built. -/
theorem writePending_spec (start : Nat) {hasFreqs : Bool} {stream : Bytes} {terms : Terms}
    {trace : List Run} {out : Emission} (hsizes : sizes.Valid) (hout : out.position = stream.length)
    (h : f.Completed sizes depth stream.length)
    (hstands : Room terms → ∃ runs, runs.Perm trace ∧
      Stands sizes (InStream hasFreqs stream) f.pending.toList terms runs)
    (hbegins : Begins (f.last.take depth) start f.pending.toList)
    (hwhole : depth = 0 → start = 0) (hlt : start < f.pending.toList.length)
    (henough : f.last.take depth ≠ [] → sizes.min ≤ f.pending.toList.length - start) :
    Leads sizes hasFreqs (Room terms) (f.closeRun sizes hasFreqs depth start) out
      fun f' items new => ∃ b r, new = [r] ∧
        f' = { f with pending := (f.pending.take start).push (.block b) } ∧
        r.stem = f.last.take depth ∧ b.stem = r.stem ∧ b.fp = r.fp ∧
        r.fp < (stream ++ Item.encodeAll items).length ∧ r.Sound sizes ∧
        InStream hasFreqs (stream ++ Item.encodeAll items) r ∧
        (Room terms → ∃ terms₁ terms₂ runs₁ runs₂, terms = terms₁ ++ terms₂ ∧
          (runs₁ ++ runs₂).Perm trace ∧
          Stands sizes (InStream hasFreqs stream) (f.pending.toList.take start) terms₁ runs₁ ∧
          Stands sizes (InStream hasFreqs stream) r.entries terms₂ runs₂ ∧
          b.index.Denotes ((r :: runs₂).map Run.pair) ∧
          b.index.nodes.length ≤ Transducer.arcRoom locationRoom * termBytes terms₂) := by
  have hdepth : (f.last.take depth).length = depth := by
    have := h.depth_le
    rw [List.length_take]
    omega
  obtain ⟨r, out', items, hstem, hentries, hfp, hsound, hemitted, hsteps, hbefore, hstored⟩ :=
    writeRun_spec hasFreqs out hsizes
      (show f.pending.toList.drop start ≠ [] by rw [Ne, List.drop_eq_nil_iff]; omega)
      h.keys.drop h.apart.drop
      (hout ▸ h.within hbegins) (fun q => h.few_of_longer)
      (by rw [List.length_drop]; exact henough)
  have heq := closeRun_eq hstem (by rw [hstem, hdepth]) hwhole hlt hentries hemitted
  have hposition : (stream ++ Item.encodeAll items).length = out'.position := by
    rw [List.length_append, hsteps.position, hout]
  -- with room, what the run stands for is split off, and its index is built
  have hbuilt : Room terms → ∃ terms₁ terms₂ runs₁ runs₂ b, terms = terms₁ ++ terms₂ ∧
      (runs₁ ++ runs₂).Perm trace ∧
      Stands sizes (InStream hasFreqs stream) (f.pending.toList.take start) terms₁ runs₁ ∧
      Stands sizes (InStream hasFreqs stream) r.entries terms₂ runs₂ ∧
      compileIndex (Piece.writtenFrom r.stem r.entries.length none r.pieces) = .ok b ∧
      b.index.Denotes ((r :: runs₂).map Run.pair) ∧
      b.index.nodes.length ≤ Transducer.arcRoom locationRoom * termBytes terms₂ := by
    intro hroom
    obtain ⟨runs, hperm, hall⟩ := hstands hroom
    rw [← List.take_append_drop start f.pending.toList] at hall
    obtain ⟨terms₁, terms₂, runs₁, runs₂, rfl, rfl, hfront, hback⟩ := hall.split
    rw [← hentries] at hback
    obtain ⟨b, hb, hindex⟩ :=
      compileRun_spec hsizes.two_le hroom.of_append_right hsound hback
    exact ⟨terms₁, terms₂, runs₁, runs₂, b, rfl, hperm, hfront, hback, hb, hindex⟩
  cases hcompile : compileIndex (Piece.writtenFrom r.stem r.entries.length none r.pieces) with
  | error e =>
    rw [hcompile] at heq hbuilt
    refine .inr ⟨fun hroom => ?_, e, out', items, [r], heq, hsteps⟩
    obtain ⟨_, _, _, _, b, -, -, -, -, hb, -⟩ := hbuilt hroom
    exact absurd hb (by simp)
  | ok b =>
    rw [hcompile] at heq hbuilt
    obtain ⟨hbstem, p, rest, hpieces, hbfp⟩ := compileIndex_ok hcompile
    have hrfp : r.fp = p.fp := by
      rw [Run.fp, hpieces]
      rfl
    refine .inl ⟨_, out', items, [r], heq, hsteps, b, r, rfl, rfl, hstem, hbstem,
      hbfp.trans hrfp.symm, hposition ▸ hbefore, hsound, hstored stream hout.symm, fun hroom => ?_⟩
    obtain ⟨terms₁, terms₂, runs₁, runs₂, b', hterms, hperm, hfront, hback, hb', hindex⟩ :=
      hbuilt hroom
    obtain rfl := Except.ok.inj hb'
    exact ⟨terms₁, terms₂, runs₁, runs₂, hterms, hperm, hfront, hback, hindex⟩

/-- **The longest open prefix is completed.** -/
theorem closeDepth_spec {hasFreqs : Bool} {stream : Bytes} {terms : Terms} {trace : List Run}
    {out : Emission} (hsizes : sizes.Valid) (hout : out.position = stream.length)
    (h : f.Inv sizes hasFreqs (depth + 1) stream terms trace)
    (hbegins : Begins (f.last.take (depth + 1)) start f.pending.toList) :
    Leads sizes hasFreqs (Room terms)
      (if sizes.min ≤ f.pending.size - start then f.closeRun sizes hasFreqs (depth + 1) start
        else pure f) out
      fun f' items new => f'.last = f.last ∧ f'.starts = f.starts ∧
        f'.Inv sizes hasFreqs depth (stream ++ Item.encodeAll items) terms (trace ++ new) := by
  have htwo := hsizes.two_le
  have hsize : f.pending.size = f.pending.toList.length := Array.length_toList.symm
  by_cases henough : sizes.min ≤ f.pending.size - start
  · rw [if_pos henough]
    rw [hsize] at henough
    refine (writePending_spec start hsizes hout h.ordered.toCompleted h.stands hbegins
      (fun hzero => absurd hzero (Nat.succ_ne_zero _)) (by omega) fun _ => henough).imp ?_
    rintro f' items new ⟨b, r, rfl, rfl, hstem, hbstem, hbfp, hfp, hsound, hstored, hstands⟩
    have hordered := h.ordered.close htwo hbegins (by omega) (hbstem.trans hstem)
      (hbfp ▸ hfp) (by rw [List.length_append]; exact Nat.le_add_right ..)
    have hlist := toList_take_push f.pending start (.block b)
    have hterms : terms ≠ [] := fun hnil => by
      rw [h.pending.mp hnil, List.length_nil] at henough
      omega
    refine ⟨rfl, rfl, hordered, ⟨fun hnil => absurd hnil hterms, fun hnil => ?_⟩, fun hroom => ?_⟩
    · rw [hlist] at hnil
      simp at hnil
    · -- what the replaced entries stood for, the block stands for now
      obtain ⟨terms₁, terms₂, runs₁, runs₂, rfl, hperm, hfront, hback, hdenotes, -⟩ :=
        hstands hroom
      have hmono : ∀ r', InStream hasFreqs stream r' →
          InStream hasFreqs (stream ++ Item.encodeAll items) r' := fun r' hr' => hr'.mono _
      -- only the root run has the empty prefix, and this one is `depth + 1` long
      have hproper : r.stem ≠ [] := by
        have := h.ordered.depth_le
        rw [hstem, Ne, List.take_eq_nil_iff]
        rintro (hzero | hnil)
        · omega
        · rw [hnil, List.length_nil] at this
          omega
      have hblock := Stands.block hbstem hbfp hproper hsound hstored
        (hback.mono fun r' _ => hmono r') hdenotes .nil
      rw [hlist]
      refine ⟨runs₁ ++ (r :: runs₂ ++ []), ?_, ?_⟩
      · rw [List.append_nil]
        exact List.perm_middle.trans
          ((hperm.cons r).trans (List.perm_append_singleton r trace).symm)
      · have hall := (hfront.mono fun r' _ => hmono r').append hblock
        rwa [List.append_nil terms₂] at hall
  · -- too few entries for a block: they go up one level as they are
    rw [if_neg henough]
    rw [hsize] at henough
    refine .pure ⟨rfl, rfl, ?_⟩
    rw [Item.encodeAll_nil, List.append_nil, List.append_nil]
    exact ⟨h.ordered.skip hbegins (by omega), h.pending, h.stands⟩

/-- **All prefixes longer than what is kept are completed**, the longest first. -/
theorem closeRuns_spec {hasFreqs : Bool} {kept : Nat} {terms : Terms} (hsizes : sizes.Valid)
    (count : Nat) :
    ∀ {f : Frontier} {stream : Bytes} {trace : List Run} {out : Emission},
      out.position = stream.length → f.Inv sizes hasFreqs (kept + count) stream terms trace →
      Leads sizes hasFreqs (Room terms) (closeRuns sizes hasFreqs kept count f) out
        fun f' items new => f'.last = f.last ∧ f'.starts = f.starts ∧
          f'.Inv sizes hasFreqs kept (stream ++ Item.encodeAll items) terms (trace ++ new) := by
  induction count with
  | zero =>
    intro f stream trace out _ h
    refine .pure ⟨rfl, rfl, ?_⟩
    rw [Item.encodeAll_nil, List.append_nil, List.append_nil]
    exact h
  | succ count ih =>
    intro f stream trace out hout h
    obtain ⟨start, hstart, hbegins⟩ := h.ordered.starts (kept + count) (by omega)
    have hle : start ≤ f.pending.size := by
      rw [← Array.length_toList]
      exact hbegins.le
    rw [closeRuns]
    simp only [hstart, if_pos hle]
    -- the step is one computation, whose branches the rest follows
    have hone : ∀ g : Frontier → Emit Frontier,
        (if sizes.min ≤ f.pending.size - start then
            f.closeRun sizes hasFreqs (kept + count + 1) start >>= g
          else pure f >>= g)
          = (if sizes.min ≤ f.pending.size - start then
              f.closeRun sizes hasFreqs (kept + count + 1) start else pure f) >>= g := by
      intro g
      split <;> rfl
    rw [hone]
    refine (closeDepth_spec hsizes hout h hbegins).bind ?_
    rintro f' out' items new hsteps ⟨hlast, hstarts, hinv⟩
    have hout' : out'.position = (stream ++ Item.encodeAll items).length := by
      rw [hsteps.position, hout, List.length_append]
    refine (ih hout' hinv).imp ?_
    rintro f'' items' new' ⟨hlast', hstarts', hinv'⟩
    refine ⟨hlast'.trans hlast, hstarts'.trans hstarts, ?_⟩
    rwa [Item.encodeAll_append, ← List.append_assoc, ← List.append_assoc]

/-- All that is pending sorts before a term that may come next. -/
theorem Ordered.key_lt {term : Bytes} {e : Entry} (h : f.Ordered sizes depth position)
    (hlt : f.pending.toList = [] ∨ f.last < term) (he : e ∈ f.pending.toList) : e.key < term := by
  rcases hlt with hnil | hlt
  · rw [hnil] at he
    simp at he
  · rcases Bytes.lt_or_eq_or_lt e.key f.last with hbefore | heq | hafter
    · exact List.lt_trans hbefore hlt
    · exact heq ▸ hlt
    · exact absurd hafter (h.le_last e he)

/-- What a pending entry shares with the next term, the last term shares as well. -/
theorem Ordered.length_le_agreement {term q : Bytes} {e : Entry}
    (h : f.Ordered sizes depth position) (hlt : f.pending.toList = [] ∨ f.last < term)
    (he : e ∈ f.pending.toList) (hterm : q <+: term) (hkey : q <+: e.key) :
    q.length ≤ f.last.agreement term := by
  rcases hlt with hnil | hlt
  · rw [hnil] at he
    simp at he
  · refine Bytes.length_le_agreement ?_ hterm
    rcases Bytes.lt_or_eq_or_lt e.key f.last with hbefore | heq | hafter
    · exact Bytes.prefix_between hkey hterm hbefore hlt
    · exact heq ▸ hkey
    · exact absurd hafter (h.le_last e he)

/-- Once the prefixes that the next term leaves behind are closed, it continues no pending block. -/
theorem Ordered.not_continued {term : Bytes} {b : SubBlock}
    (h : f.Ordered sizes (f.last.agreement term) position)
    (hlt : f.pending.toList = [] ∨ f.last < term) (hb : .block b ∈ f.pending.toList) :
    ¬ b.stem <+: term := by
  intro hpre
  refine (h.closed b hb).2 ?_
  rw [Bytes.take_agreement f.last term, List.prefix_take_iff]
  exact ⟨hpre, h.length_le_agreement hlt hb hpre (List.prefix_refl _)⟩

@[simp]
theorem turn_pending (f : Frontier) (kept : Nat) (term : Bytes) :
    (f.turn kept term).pending = f.pending := rfl

@[simp]
theorem turn_last (f : Frontier) (kept : Nat) (term : Bytes) : (f.turn kept term).last = term := rfl

/-- A prefix that is kept starts where it did. -/
theorem turn_starts_kept {kept i : Nat} (hi : i < kept) {term : Bytes} {start : Nat}
    (h : f.starts[i]? = some start) : (f.turn kept term).starts[i]? = some start := by
  have hlength := (List.getElem?_eq_some_iff.mp h).1
  rw [turn, List.append_assoc, List.getElem?_append_left (by rw [List.length_take]; omega),
    List.getElem?_take_of_lt hi, h]

/-- A prefix that is new starts at the end. -/
theorem turn_starts_new {kept i : Nat} (hle : kept ≤ i) {term : Bytes} (hi : i < term.length)
    (hkept : kept ≤ f.starts.length) :
    (f.turn kept term).starts[i]? = some f.pending.size := by
  have htake : (f.starts.take kept).length = kept := by
    rw [List.length_take]
    omega
  rw [turn, List.append_assoc, List.getElem?_append_right (by omega), htake,
    List.getElem?_append_left (by rw [List.length_replicate]; omega), List.getElem?_replicate,
    if_pos (by omega)]

/-- As many prefixes as are open have their place. -/
theorem Ordered.le_length_starts (h : f.Ordered sizes depth position) :
    depth ≤ f.starts.length := by
  by_cases hzero : depth = 0
  · omega
  · obtain ⟨start, hstart, -⟩ := h.starts (depth - 1) (by omega)
    have := (List.getElem?_eq_some_iff.mp hstart).1
    omega

/-- **The next term goes to the end**, and its prefixes that the last term does not have start
there. -/
theorem Ordered.push {term : Bytes} {state : TermState}
    (h : f.Ordered sizes (f.last.agreement term) position)
    (hlt : f.pending.toList = [] ∨ f.last < term) :
    Ordered sizes
      { f.turn (f.last.agreement term) term with pending := f.pending.push (.term term state) }
      term.length position := by
  have hlist : (f.pending.push (.term term state)).toList
      = f.pending.toList ++ [.term term state] := Array.toList_push
  have hkept := (Bytes.agreement_le f.last term).2
  have hsame := Bytes.take_agreement f.last term
  refine ⟨⟨?keys, ?apart, Nat.le_refl _, ?closed, fun q hq => ?few⟩, ?last, fun i hi => ?starts⟩
  case keys =>
    rw [hlist]
    exact h.keys.concat fun e he => h.key_lt hlt he
  case apart =>
    rw [hlist]
    refine h.apart.concat fun e he hterm => ?_
    cases e with
    | term => simp [Entry.isTerm] at hterm
    | block b => exact h.not_continued hlt he
  case last =>
    rw [hlist]
    intro e he
    rcases List.mem_append.mp he with he | he
    · exact List.lt_asymm (h.key_lt hlt he)
    · rw [List.mem_singleton.mp he]
      exact List.lt_irrefl term
  case starts =>
    simp only at hi ⊢
    rw [hlist]
    by_cases hold : i < f.last.agreement term
    · -- the last term has this prefix too, and the new term goes on with it
      obtain ⟨start, hstart, hbegins⟩ := h.starts i hold
      have htake : f.last.take (i + 1) = term.take (i + 1) := by
        have := congrArg (List.take (i + 1)) hsame
        rwa [List.take_take, List.take_take, Nat.min_eq_left (by omega)] at this
      exact ⟨start, turn_starts_kept hold hstart, (htake ▸ hbegins).concat (List.take_prefix ..)⟩
    · -- the prefix is new, so nothing pending has it
      refine ⟨f.pending.toList.length, ?_, (begins_length fun e he hpre => ?_).concat
        (List.take_prefix ..)⟩
      · rw [Array.length_toList]
        exact turn_starts_new (by omega) hi h.le_length_starts
      · have := h.length_le_agreement hlt he (List.take_prefix ..) hpre
        rw [List.length_take] at this
        omega
  case closed =>
    simp only [turn_last]
    rw [hlist, List.take_length]
    intro b hb
    rcases List.mem_append.mp hb with hb | hb
    · exact ⟨(h.closed b hb).1, h.not_continued hlt hb⟩
    · simp at hb
  case few =>
    simp only [turn_last] at hq ⊢
    rw [List.take_length] at hq
    rw [hlist, share_append]
    have hall := h.few q fun hpre => hq (by
      rw [hsame] at hpre
      exact hpre.trans (List.take_prefix ..))
    have hnone := share_of_none q [.term term state] fun e he => by
      rw [List.mem_singleton.mp he]
      exact hq
    omega

theorem advance_spec {hasFreqs : Bool} {stream : Bytes} {terms : Terms} {trace : List Run}
    {out : Emission} (hsizes : sizes.Valid) (term : Bytes) (hout : out.position = stream.length)
    (h : f.Inv sizes hasFreqs f.last.length stream terms trace) :
    Leads sizes hasFreqs (Room terms) (f.advance sizes hasFreqs term) out
      fun f' items new => ∃ g : Frontier, g.last = f.last ∧
        g.Inv sizes hasFreqs (f.last.agreement term) (stream ++ Item.encodeAll items) terms
          (trace ++ new) ∧
        f' = g.turn (f.last.agreement term) term := by
  have hkept := (Bytes.agreement_le f.last term).1
  have hdepth :
      f.last.agreement term + (f.last.length - f.last.agreement term) = f.last.length := by
    omega
  refine (closeRuns_spec hsizes (f.last.length - f.last.agreement term) hout
    (hdepth.symm ▸ h)).bind ?_
  rintro g out' items new _ ⟨hlast, _, hinv⟩
  refine .pure ⟨g, hlast, ?_, rfl⟩
  rwa [List.append_nil, List.append_nil]

/-- **A term that sorts after the last is taken.** -/
theorem push_spec {hasFreqs : Bool} {stream : Bytes} {terms : Terms} {trace : List Run}
    {out : Emission} (hsizes : sizes.Valid) {term : Bytes} (state : TermState)
    (hout : out.position = stream.length)
    (h : f.Inv sizes hasFreqs f.last.length stream terms trace)
    (hlt : terms = [] ∨ f.last < term) :
    Leads sizes hasFreqs (Room terms) (f.push sizes hasFreqs term state) out
      fun f' items new => f'.last = term ∧
        f'.Inv sizes hasFreqs f'.last.length (stream ++ Item.encodeAll items)
          (terms ++ [(term, state)]) (trace ++ new) := by
  refine (advance_spec hsizes term hout h).bind ?_
  rintro f' out' items new _ ⟨g, hlast, hinv, rfl⟩
  refine .pure ⟨rfl, ?_⟩
  rw [List.append_nil, List.append_nil]
  rw [← hlast] at hinv hlt ⊢
  have hlist : (g.pending.push (.term term state)).toList
      = g.pending.toList ++ [.term term state] := Array.toList_push
  refine ⟨hinv.ordered.push (hlt.imp_left hinv.pending.mp), ?_, fun hroom => ?_⟩
  · simp
  · obtain ⟨runs, hperm, hstands⟩ := hinv.stands hroom.of_append
    refine ⟨runs, hperm, ?_⟩
    simp only [turn_pending]
    rw [hlist]
    have hlast : Stands sizes (InStream hasFreqs (stream ++ Item.encodeAll items))
        [.term term state] [(term, state)] [] := .term .nil
    have hall := hstands.append hlast
    rwa [List.append_nil] at hall

/-- **All that is pending is written**, as the run of all terms. -/
theorem close_spec {hasFreqs : Bool} {stream : Bytes} {terms : Terms} {trace : List Run}
    {out : Emission} (hsizes : sizes.Valid) (hout : out.position = stream.length)
    (h : f.Inv sizes hasFreqs f.last.length stream terms trace) (hne : terms ≠ []) :
    Leads sizes hasFreqs (Room terms) (f.close sizes hasFreqs) out
      fun root items new => Room terms → ∃ runs, runs.Perm (trace ++ new) ∧
        Rooted sizes (InStream hasFreqs (stream ++ Item.encodeAll items)) root.index terms runs ∧
        root.index.nodes.length ≤ Transducer.arcRoom locationRoom * termBytes terms := by
  refine (advance_spec hsizes [] hout h).bind ?_
  rintro f' out' items new hsteps ⟨g, hlast, hinv, rfl⟩
  have hkept : f.last.agreement [] = 0 := by
    have := (Bytes.agreement_le f.last []).2
    simpa using this
  rw [hkept] at hinv ⊢
  have hpending : g.pending.toList ≠ [] := fun hnil => hne (hinv.pending.mpr hnil)
  have hout' : out'.position = (stream ++ Item.encodeAll items).length := by
    rw [hsteps.position, hout, List.length_append]
  -- Without a last term nothing is open but the empty prefix.
  have hroot : (g.turn 0 []).Completed sizes 0 (stream ++ Item.encodeAll items).length :=
    ⟨hinv.ordered.keys, hinv.ordered.apart, Nat.le_refl _, hinv.ordered.closed, hinv.ordered.few⟩
  refine (writePending_spec 0 hsizes hout' hroot hinv.stands ?_ (fun _ => rfl) ?_ ?_).bind ?_
  · exact ⟨Nat.zero_le _, by simp, fun e _ => List.nil_prefix⟩
  · exact List.length_pos_iff.mpr hpending
  · intro hproper
    exact absurd rfl hproper
  · rintro f'' out'' items' new' _
      ⟨b, r, rfl, rfl, hstem, hbstem, hbfp, -, hsound, hstored, hstands⟩
    have hsingle := toList_take_push g.pending 0 (.block b)
    rw [List.take_zero, List.nil_append] at hsingle
    have hempty : b.stem = [] := by
      rw [hbstem, hstem]
      exact List.take_zero
    simp only [turn_pending, hsingle, hempty]
    refine .pure fun hroom => ?_
    obtain ⟨terms₁, terms₂, runs₁, runs₂, rfl, hperm, hfront, hback, hdenotes, hlength⟩ :=
      hstands hroom
    rw [List.take_zero] at hfront
    cases hfront
    rw [List.nil_append] at hperm ⊢
    rw [List.append_nil, List.append_nil, Item.encodeAll_append, ← List.append_assoc,
      ← List.append_assoc]
    have hmono : ∀ r', InStream hasFreqs (stream ++ Item.encodeAll items) r' →
        InStream hasFreqs (stream ++ Item.encodeAll items ++ Item.encodeAll items') r' :=
      fun r' hr' => hr'.mono _
    refine ⟨r :: runs₂, (hperm.cons r).trans (List.perm_append_singleton r _).symm,
      ⟨r, runs₂, rfl, ?_, hsound, hstored, hback.mono fun r' _ => hmono r', hdenotes⟩, hlength⟩
    rw [hstem]
    exact List.take_zero

end Frontier

end Lexicon

import Lexicon.Block.Reader
import Lexicon.Proofs.Block.Room
import Lexicon.Proofs.Block.Stats
import Lexicon.Proofs.Compression.Suffixes
import Lexicon.Proofs.Term.Longs
import Mathlib.Algebra.Order.BigOperators.Group.List

/-!
# Blocks are read back

`Block.decode_encodeBlock`: decoding at the place where a block was written gives its entries, each
with what it has after the prefix of the run, whatever stands before and after the block and
whatever the codec of the reader remembers.

The parts of a block are read side by side, one entry after the other. What carries the induction
is that each part is in front of the same entries (`Parts.Before`), so reading one entry is the only
step there is (`readEntry_spec`).
-/

namespace Lexicon

open Read

/-! ## Entries as a reader sees them -/

namespace Entry

/-- The entry as it is in a block whose run has a prefix of the given length. -/
def seen (depth : Nat) (hasFreqs : Bool) : Entry → BlockEntry
  | .term key state => .term (key.drop depth) (state.normalized hasFreqs)
  | .block b => .block (b.stem.drop depth) b.fp

/-- What an entry has after a prefix of the given length, and its numbers, can be counted. -/
def Short (depth : Nat) : Entry → Prop
  | .term key state => (key.drop depth).length < 2 ^ 31 ∧ state.longs.length < 2 ^ 32
  | .block b => (b.stem.drop depth).length < 2 ^ 31

/-- What the formats ask of an entry of the block at `fp`. -/
def Writable (leaf hasFreqs : Bool) (fp : Nat) : Entry → Prop
  | .term _ state => BlockStats.Recordable hasFreqs state.toTermStats
  | .block b => leaf = false ∧ b.fp < fp

end Entry

/-- The first term of a row is absolute, so the codec before it does not matter. -/
theorem longsItems_absolute (c c' : LongsCodec) (states : List TermState) :
    (longsItems c true states).1 = (longsItems c' true states).1 := by
  cases states <;> rfl

/-- What is kept of the statistics is the normal form of the state. -/
theorem normalized_eq (hasFreqs : Bool) (state : TermState) :
    ({ BlockStats.kept hasFreqs state.toTermStats with longs := state.longs } : TermState)
      = state.normalized hasFreqs := by
  cases hasFreqs <;> rfl

/-! ## The lengths of an entry -/

namespace Entry

/-- An entry of a small load has a short suffix. -/
theorem short_of_load (depth : Nat) {e : Entry} (hload : e.load < 2 ^ 31) : e.Short depth := by
  cases e with
  | term key state =>
    simp only [load] at hload
    refine ⟨?_, by omega⟩
    rw [List.length_drop]
    omega
  | block b =>
    simp only [load] at hload
    show (b.stem.drop depth).length < 2 ^ 31
    rw [List.length_drop]
    omega

/-- The length of a term is one number, which gives back the length and says that it is no
sub-block. -/
theorem lengthItems_term {depth : Nat} (leaf : Bool) (fp : Nat) {key : Bytes} (state : TermState)
    (hlength : (key.drop depth).length < 2 ^ 31) :
    ∃ code, (term key state).lengthItems depth leaf fp = [Item.nat32 code] ∧ code < 2 ^ 32 ∧
      (if leaf then code else code / 2) = (key.drop depth).length ∧
      ¬ (!leaf && decide (code % 2 = 1)) = true := by
  rw [List.length_drop] at hlength ⊢
  cases leaf with
  | true => exact ⟨key.length - depth, rfl, by omega, if_pos rfl, by simp⟩
  | false =>
    refine ⟨2 * (key.length - depth), ?_, by omega, ?_, by simp⟩
    · have hcode : UInt32.ofNat (key.length - depth) <<< 1
          = UInt32.ofNat (2 * (key.length - depth)) := by
        apply UInt32.toNat_inj.mp
        rw [toNat_shiftLeft_one_of_lt (by rw [UInt32.toNat_ofNat']; omega),
          UInt32.toNat_ofNat', UInt32.toNat_ofNat']
        omega
      rw [lengthItems, Item.nat32, ← hcode]
      rfl
    · rw [if_neg (by simp)]
      omega

/-- The length of a sub-block is marked by its lowest bit; the way back follows it. -/
theorem lengthItems_block {depth : Nat} (leaf : Bool) (fp : Nat) {b : SubBlock}
    (hlength : (b.stem.drop depth).length < 2 ^ 31) :
    (block b).lengthItems depth leaf fp
      = [Item.nat32 (2 * (b.stem.drop depth).length + 1), Item.nat64 (fp - b.fp)] := by
  rw [List.length_drop] at hlength ⊢
  have hshift := toNat_shiftLeft_one_of_lt
    (show (UInt32.ofNat (b.stem.length - depth)).toNat < 2 ^ 31 by
      rw [UInt32.toNat_ofNat']
      omega)
  have hcode : (UInt32.ofNat (b.stem.length - depth) <<< 1) ||| 1
      = UInt32.ofNat (2 * (b.stem.length - depth) + 1) := by
    apply UInt32.toNat_inj.mp
    rw [UInt32.toNat_or, hshift, UInt32.toNat_ofNat', UInt32.toNat_ofNat',
      Nat.mod_eq_of_lt (by omega), Nat.mod_eq_of_lt (by omega)]
    -- an even number has no lowest bit, so setting it is adding one
    have hor := Nat.shiftLeft_add_eq_or_of_lt (show 1 < 2 ^ 1 by omega) (b.stem.length - depth)
    rw [Nat.shiftLeft_eq, Nat.pow_one, Nat.mul_comm] at hor
    exact hor.symm
  rw [lengthItems, hcode]
  rfl

end Entry

namespace Block

/-! ## One entry after the other -/

/-- Each part is in front of these entries, and ends after them. -/
structure Parts.Before (p : Parts) (depth : Nat) (leaf hasFreqs : Bool) (fp : Nat)
    (entries : List Entry) : Prop where
  suffixes : p.suffixes.rest = Lexicon.suffixBytes depth entries
  lengths : p.lengths.rest = lengthBytes depth leaf fp entries
  stats : p.stats.Before hasFreqs ((termStates entries).map (·.toTermStats))
  longs : p.longs.rest = Item.encodeAll (longsItems p.codec p.absolute (termStates entries)).1

/-- A suffix is taken off the suffixes. -/
theorem readSuffix_spec {bs rest : Bytes} {p : Parts} (h : p.suffixes.rest = bs ++ rest) :
    Parts.readSuffix (Read.bytes bs.length) p
      = .ok bs { p with suffixes := ⟨p.suffixes.position + bs.length, rest⟩ } := by
  have hread := takes_bytes bs p.suffixes.position rest
  rw [← h] at hread
  rw [Parts.readSuffix, hread]

/-- A length is taken off the lengths. -/
theorem readLength_spec {r : Read Nat} {bs rest : Bytes} {n : Nat} {p : Parts}
    (hr : Takes r bs n) (h : p.lengths.rest = bs ++ rest) :
    Parts.readLength r p
      = .ok n { p with lengths := ⟨p.lengths.position + bs.length, rest⟩ } := by
  have hread := hr p.lengths.position rest
  rw [← h] at hread
  rw [Parts.readLength, hread]

/-- The statistics of the next term are taken off their records. -/
theorem nextStats_spec {r : BlockStats.Reader} {hasFreqs : Bool} {s : TermStats}
    {row : List TermStats} (h : r.Before hasFreqs (s :: row)) :
    ∃ stats, stats.Before hasFreqs row ∧ ∀ p : Parts, p.stats = r →
      Parts.nextStats p = .ok (BlockStats.kept hasFreqs s) { p with stats } := by
  obtain ⟨stats, hnext, hstats⟩ := BlockStats.Reader.next_spec h
  refine ⟨stats, hstats, fun p hp => ?_⟩
  rw [Parts.nextStats, hp, hnext]

/-- The longs of the next term are taken off theirs. -/
theorem nextLongs_spec {p : Parts} {longs : List UInt64} {rest : Bytes}
    (hlength : longs.length < 2 ^ 32)
    (h : p.longs.rest = Item.encodeAll (p.codec.encode p.absolute longs).1 ++ rest) :
    Parts.nextLongs p = .ok longs
      { p with
        codec := (p.codec.encode p.absolute longs).2
        longs := ⟨p.longs.position
          + (Item.encodeAll (p.codec.encode p.absolute longs).1).length, rest⟩
        absolute := false } := by
  have hdecode := LongsCodec.decode_encode p.codec p.absolute hlength p.longs.position rest
  rw [← h] at hdecode
  rw [Parts.nextLongs, hdecode]

/-- Reading a term takes its bytes, its length, its statistics and its metadata. -/
theorem readEntry_term {p : Parts} {depth fp : Nat} {leaf hasFreqs : Bool} {key : Bytes}
    {state : TermState} {entries : List Entry} (hshort : (Entry.term key state).Short depth)
    (h : p.Before depth leaf hasFreqs fp (.term key state :: entries)) :
    ∃ p', readEntry fp leaf p = .ok ((Entry.term key state).seen depth hasFreqs) p' ∧
      p'.Before depth leaf hasFreqs fp entries := by
  obtain ⟨hsuffixes, hlengths, hstats, hlongs⟩ := h
  obtain ⟨hlength, hlongs'⟩ := hshort
  obtain ⟨code, hitems, hcode, hsize, hkind⟩ := Entry.lengthItems_term leaf fp state hlength
  rw [suffixBytes_cons] at hsuffixes
  rw [lengthBytes_cons, hitems, Item.encodeAll_singleton] at hlengths
  obtain ⟨stats, hstats', hnext⟩ := nextStats_spec hstats
  -- the reader's codec is the writer's at this term, so the rest is written as from here on
  have hrow : p.longs.rest = Item.encodeAll (p.codec.encode p.absolute state.longs).1
      ++ Item.encodeAll (longsItems (p.codec.encode p.absolute state.longs).2 false
        (termStates entries)).1 := by
    rw [hlongs, ← Item.encodeAll_append]
    rfl
  refine ⟨{
    suffixes := ⟨p.suffixes.position + (key.drop depth).length, Lexicon.suffixBytes depth entries⟩
    lengths := ⟨p.lengths.position + (Item.nat32 code).encode.length,
      lengthBytes depth leaf fp entries⟩
    stats := stats
    longs := ⟨p.longs.position + (Item.encodeAll (p.codec.encode p.absolute state.longs).1).length,
      Item.encodeAll (longsItems (p.codec.encode p.absolute state.longs).2 false
        (termStates entries)).1⟩
    codec := (p.codec.encode p.absolute state.longs).2
    absolute := false }, ?_, ⟨rfl, rfl, hstats', rfl⟩⟩
  rw [readEntry, bind_ok (readLength_spec (takes_nat32 hcode) hlengths), hsize]
  refine Eq.trans (bind_ok (readSuffix_spec hsuffixes)) ?_
  rw [if_neg hkind]
  refine Eq.trans (bind_ok (hnext _ rfl)) ?_
  refine Eq.trans (bind_ok (nextLongs_spec hlongs' hrow)) ?_
  show EStateM.Result.ok (BlockEntry.term _ _) _ = _
  rw [normalized_eq]
  rfl

/-- Reading a sub-block takes its bytes, its length and the way back to it. -/
theorem readEntry_block {p : Parts} {depth fp : Nat} {hasFreqs : Bool} {b : SubBlock}
    {entries : List Entry} (hfp : fp < 2 ^ 64) (hlength : (b.stem.drop depth).length < 2 ^ 31)
    (hback : b.fp < fp) (h : p.Before depth false hasFreqs fp (.block b :: entries)) :
    ∃ p', readEntry fp false p = .ok ((Entry.block b).seen depth hasFreqs) p' ∧
      p'.Before depth false hasFreqs fp entries := by
  obtain ⟨hsuffixes, hlengths, hstats, hlongs⟩ := h
  rw [suffixBytes_cons] at hsuffixes
  rw [lengthBytes_cons, Entry.lengthItems_block false fp hlength, Item.encodeAll_cons,
    Item.encodeAll_singleton, List.append_assoc] at hlengths
  refine ⟨{ p with
    suffixes := ⟨p.suffixes.position + (b.stem.drop depth).length,
      Lexicon.suffixBytes depth entries⟩
    lengths := ⟨p.lengths.position
        + (Item.nat32 (2 * (b.stem.drop depth).length + 1)).encode.length
        + (Item.nat64 (fp - b.fp)).encode.length, lengthBytes depth false fp entries⟩ },
    ?_, ⟨rfl, rfl, hstats, hlongs⟩⟩
  have hsize : (2 * (b.stem.drop depth).length + 1) / 2 = (b.stem.drop depth).length := by omega
  rw [readEntry, bind_ok (readLength_spec (takes_nat32 (by omega)) hlengths)]
  simp only [Bool.false_eq_true, if_false, hsize]
  refine Eq.trans (bind_ok (readSuffix_spec hsuffixes)) ?_
  rw [if_pos (by simp)]
  refine Eq.trans (bind_ok (readLength_spec (takes_nat64 (by omega)) rfl)) ?_
  dsimp only
  -- the way back is neither nothing nor past the start
  rw [if_neg (by omega)]
  show EStateM.Result.ok (BlockEntry.block _ _) _ = _
  rw [show fp - (fp - b.fp) = b.fp by omega]
  rfl

/-- **Reading an entry** takes it off the front of every part. -/
theorem readEntry_spec {p : Parts} {depth fp : Nat} {leaf hasFreqs : Bool} {e : Entry}
    {entries : List Entry} (hfp : fp < 2 ^ 64) (hshort : e.Short depth)
    (he : e.Writable leaf hasFreqs fp) (h : p.Before depth leaf hasFreqs fp (e :: entries)) :
    ∃ p', readEntry fp leaf p = .ok (e.seen depth hasFreqs) p' ∧
      p'.Before depth leaf hasFreqs fp entries := by
  cases e with
  | term key state => exact readEntry_term hshort h
  | block b =>
    obtain ⟨rfl, hback⟩ := he
    exact readEntry_block hfp hshort hback h

/-- As many entries are read as were written, each as it is seen. -/
theorem readEntries_spec {depth fp : Nat} {leaf hasFreqs : Bool} (hfp : fp < 2 ^ 64)
    (entries : List Entry) :
    ∀ {p : Parts}, (∀ e ∈ entries, e.Short depth) →
      (∀ e ∈ entries, e.Writable leaf hasFreqs fp) → p.Before depth leaf hasFreqs fp entries →
      ∃ p', readEntries fp leaf entries.length p
          = .ok (entries.map (Entry.seen depth hasFreqs)) p' ∧
        p'.Before depth leaf hasFreqs fp [] := by
  induction entries with
  | nil => intro p _ _ h; exact ⟨p, rfl, h⟩
  | cons e entries ih =>
    intro p hshort hentries h
    obtain ⟨hfirst, hshort⟩ := List.forall_mem_cons.mp hshort
    obtain ⟨hwritable, hentries⟩ := List.forall_mem_cons.mp hentries
    obtain ⟨p₁, hread, hbefore⟩ := readEntry_spec hfp hfirst hwritable h
    obtain ⟨p₂, hrest, hend⟩ := ih hshort hentries hbefore
    refine ⟨p₂, ?_, hend⟩
    rw [List.length_cons, readEntries, bind_ok hread, bind_ok hrest]
    rfl

/-- Parts are exhausted behind the last entry. -/
theorem exhausted_of_before_nil {p : Parts} {depth fp : Nat} {leaf hasFreqs : Bool}
    (h : p.Before depth leaf hasFreqs fp []) : p.exhausted = true := by
  obtain ⟨hsuffixes, hlengths, hstats, hlongs⟩ := h
  have hstats' := BlockStats.Reader.exhausted_of_before_nil hstats
  rw [Parts.exhausted, hstats', Cursor.atEnd, hsuffixes, Cursor.atEnd, hlengths, Cursor.atEnd,
    hlongs]
  rfl

/-! ## The parts -/

/-- The lengths are read back, also if all of them are alike. -/
theorem takes_readLengths {first : UInt8} {rest : Bytes} (hlength : rest.length + 1 < 2 ^ 31) :
    Takes readLengths (Item.encodeAll (lengthsItems first rest)) (first :: rest) := by
  rw [lengthsItems, readLengths]
  dsimp only
  split
  next hall =>
    have hsame : List.replicate (rest.length + 1) first = first :: rest := by
      have hrest : rest = List.replicate rest.length first :=
        List.eq_replicate_iff.mpr
          ⟨rfl, fun b hb => by simpa using List.all_eq_true.mp hall b hb⟩
      rw [List.replicate_succ, ← hrest]
    rw [Item.encodeAll_cons, Item.encodeAll_singleton]
    refine (takes_nat32 (by omega)).bind ?_
    rw [if_pos (by omega), show (2 * (rest.length + 1) + 1) / 2 = rest.length + 1 by omega]
    refine (takes_byte first).bind_last ?_
    rw [if_neg (by omega), hsame]
    exact takes_pure _
  next hne =>
    rw [Item.encodeAll_cons, Item.encodeAll_singleton]
    refine (takes_nat32 (by omega)).bind ?_
    rw [if_neg (by omega), show 2 * (rest.length + 1) / 2 = (first :: rest).length by
      rw [List.length_cons]; omega]
    exact takes_bytes _

/-- How suffixes are stored. -/
def storedAs (compressed : Option (Compression × Bytes)) : Compression :=
  compressed.elim .none Prod.fst

/-- The bytes of suffixes after their token. -/
def storedSuffixes (suffixes : Bytes) (compressed : Option (Compression × Bytes)) : Bytes :=
  compressed.elim suffixes fun (_, payload) => (Item.block payload).encode

/-- The suffixes are stored behind their length and what was done to them. -/
theorem encodeAll_suffixItems (suffixes : Bytes) (leaf : Bool)
    (compressed : Option (Compression × Bytes)) :
    Item.encodeAll (suffixItems suffixes leaf compressed)
      = (Item.nat64 (8 * suffixes.length + 4 * leaf.toNat + (storedAs compressed).code)).encode
        ++ storedSuffixes suffixes compressed := by
  rcases compressed with _ | ⟨c, payload⟩
  · simp only [suffixItems, Item.encodeAll_cons, Item.encodeAll_nil, List.append_nil]
    rfl
  · simp only [suffixItems, Item.encodeAll_cons, Item.encodeAll_nil, List.append_nil]
    rfl

/-- What compressed suffixes have to be so that they are restored. -/
def Restores (suffixes : Bytes) (compressed : Option (Compression × Bytes)) : Prop :=
  ∀ c payload, compressed = some (c, payload) →
    c ≠ .none ∧ payload.length < 2 ^ 32 ∧ c.decompress payload suffixes.length = .ok suffixes

/-- Reading the suffixes, in front of what reads the other parts. -/
theorem suffixes_step {suffixes : Bytes} {compressed : Option (Compression × Bytes)} {β : Type}
    (h : Restores suffixes compressed) (f : Bytes → Read β) (position : Nat) (rest : Bytes) :
    (match storedAs compressed with
      | .none => do
        let bs ← Read.bytes suffixes.length
        f bs
      | c => do
        let payload ← Read.block
        let bs ← lift (c.decompress payload suffixes.length)
        f bs) ⟨position, storedSuffixes suffixes compressed ++ rest⟩
      = f suffixes ⟨position + (storedSuffixes suffixes compressed).length, rest⟩ := by
  rcases compressed with _ | ⟨c, payload⟩
  · exact (takes_bytes suffixes).step f position rest
  · obtain ⟨hne, hlength, hrestored⟩ := h c payload rfl
    have hread : (do
        let payload ← Read.block
        let bs ← lift (c.decompress payload suffixes.length)
        f bs) ⟨position, (Item.block payload).encode ++ rest⟩
        = f suffixes ⟨position + (Item.block payload).encode.length, rest⟩ := by
      rw [(takes_block_item hlength).step, hrestored]
      rfl
    cases c with
    | none => exact absurd rfl hne
    | lowercase => exact hread
    | lz4 => exact hread

/-- A way of compression has a code of two bits. -/
theorem code_lt (c : Compression) : c.code < 4 := by
  cases c <;> decide

/-- The token of the suffixes gives back their length, how they are stored and whether the block is
a leaf. -/
theorem token_parts (length : Nat) (leaf : Bool) (c : Compression) :
    (8 * length + 4 * leaf.toNat + c.code) / 8 = length ∧
      (8 * length + 4 * leaf.toNat + c.code) % 4 = c.code ∧
      decide ((8 * length + 4 * leaf.toNat + c.code) / 4 % 2 = 1) = leaf := by
  have hcode := code_lt c
  have hleaf := Bool.toNat_lt leaf
  refine ⟨by omega, by omega, ?_⟩
  rw [show (8 * length + 4 * leaf.toNat + c.code) / 4 % 2 = leaf.toNat by omega]
  cases leaf <;> rfl

/-- The first number of a block gives back the count of its entries and whether it is the last. -/
theorem head_parts (count : Nat) (isLast : Bool) :
    (2 * count + isLast.toNat) / 2 = count ∧
      decide ((2 * count + isLast.toNat) % 2 = 1) = isLast := by
  have hlast := Bool.toNat_lt isLast
  refine ⟨by omega, ?_⟩
  rw [show (2 * count + isLast.toNat) % 2 = isLast.toNat by omega]
  cases isLast <;> rfl

/-- Reading the parts of a block. -/
theorem readLayout_spec (fp : Nat) {count : Nat} (isLast leaf : Bool) {suffixes stats longs : Bytes}
    {compressed : Option (Compression × Bytes)} {first : UInt8} {more : Bytes}
    (hpos : 0 < count) (hcount : count < 2 ^ 31) (hsuffixes : suffixes.length < 2 ^ 60)
    (hcompressed : Restores suffixes compressed) (hmore : more.length + 1 < 2 ^ 31)
    (hstats : stats.length < 2 ^ 32) (hlongs : longs.length < 2 ^ 32)
    (position : Nat) (rest : Bytes) {bytes : Bytes}
    (hbytes : bytes = Item.encodeAll ([.nat32 (2 * count + isLast.toNat)]
      ++ suffixItems suffixes leaf compressed ++ lengthsItems first more
      ++ [.block stats, .block longs])) :
    readLayout fp ⟨position, bytes ++ rest⟩
      = .ok ⟨count, isLast, leaf, storedAs compressed, suffixes, suffixes.length, first :: more,
          stats, longs, position + bytes.length⟩ ⟨position + bytes.length, rest⟩ := by
  have hcode := code_lt (storedAs compressed)
  have hlast := Bool.toNat_lt isLast
  have hleaf := Bool.toNat_lt leaf
  obtain ⟨hsize, hkind, hwhole⟩ := token_parts suffixes.length leaf (storedAs compressed)
  obtain ⟨hhalf, hodd⟩ := head_parts count isLast
  -- the bytes in the order in which they are read, each part in front of all that follow
  have hparts : bytes = (Item.nat32 (2 * count + isLast.toNat)).encode
      ++ ((Item.nat64 (8 * suffixes.length + 4 * leaf.toNat + (storedAs compressed).code)).encode
      ++ (storedSuffixes suffixes compressed
      ++ (Item.encodeAll (lengthsItems first more)
      ++ ((Item.block stats).encode ++ (Item.block longs).encode)))) := by
    rw [hbytes]
    simp only [Item.encodeAll_append, encodeAll_suffixItems, Item.encodeAll_cons,
      Item.encodeAll_nil, List.append_nil, List.append_assoc]
  have hlength := congrArg List.length hparts
  simp only [List.length_append] at hlength
  rw [hlength, hparts]
  simp only [List.append_assoc]
  rw [readLayout, (takes_nat32 (by omega)).step]
  simp only [hhalf, if_neg (show ¬ count = 0 by omega)]
  rw [(takes_nat64 (by omega)).step]
  simp only [hsize, hkind, hwhole, Compression.ofCode_code]
  rw [bind_ok (show lift (.ok (storedAs compressed)) _ = .ok (storedAs compressed) _ from rfl)]
  refine (suffixes_step hcompressed _ _ _).trans ?_
  rw [(takes_readLengths hmore).step, (takes_block_item hstats).step,
    (takes_block_item hlongs).step, hodd]
  simp only [Nat.add_assoc]
  rfl

/-- Every codec reads these entries from the block at `fp`. -/
def Reads (terms : Bytes) (hasFreqs : Bool) (fp depth : Nat) (isLast : Bool)
    (entries : List Entry) (stop : Nat) : Prop :=
  ∀ codec, ∃ b codec', decode terms hasFreqs fp codec = .ok b codec' ∧ b.isLast = isLast ∧
    b.entries = entries.map (Entry.seen depth hasFreqs) ∧ b.stop = stop

end Block

/-! ## Whole blocks -/

/-- What a block at `fp` of a run with the given prefix asks of an entry. -/
def Entry.Inside (stem : Bytes) (leaf : Bool) (fp : Nat) : Entry → Prop
  | .term key _ => stem <+: key
  | .block b => leaf = false ∧ stem.length < b.stem.length ∧ stem <+: b.stem ∧ b.fp < fp

/-- An entry that may stand in a block passes its check. -/
theorem Entry.checkIn_eq_ok {stem : Bytes} {leaf : Bool} {fp : Nat} {e : Entry}
    (h : e.Inside stem leaf fp) : e.checkIn stem leaf fp = .ok () := by
  cases e with
  | term key state => rw [checkIn, if_pos (List.isPrefixOf_iff_prefix.mpr h)]
  | block b =>
    obtain ⟨rfl, hlonger, hpre, hback⟩ := h
    rw [checkIn, if_neg (by simp), if_neg, if_neg (by omega)]
    rw [not_not, List.isPrefixOf_iff_prefix]
    exact ⟨hlonger, hpre⟩

/-- Entries that may stand in a block pass their check. -/
theorem forM_checkIn {stem : Bytes} {leaf : Bool} {fp : Nat} {entries : List Entry}
    (h : ∀ e ∈ entries, e.Inside stem leaf fp) :
    entries.forM (Entry.checkIn stem leaf fp) = .ok () := by
  induction entries with
  | nil => rfl
  | cons e entries ih =>
    show (e.checkIn stem leaf fp >>= fun _ => entries.forM (Entry.checkIn stem leaf fp)) = .ok ()
    rw [Entry.checkIn_eq_ok (h e (List.mem_cons_self ..))]
    exact ih fun x hx => h x (List.mem_cons_of_mem _ hx)

/-- A block with entries has lengths. -/
theorem lengthBytes_ne_nil (depth : Nat) (leaf : Bool) (fp : Nat) {entries : List Entry}
    (h : entries ≠ []) : lengthBytes depth leaf fp entries ≠ [] := by
  cases entries with
  | nil => exact absurd rfl h
  | cons e entries =>
    rw [lengthBytes_cons]
    cases e with
    | term key state =>
      simp only [Entry.lengthItems, Item.encodeAll_cons, List.append_assoc]
      exact List.append_ne_nil_of_left_ne_nil (Varint.encode_ne_nil _) _
    | block b =>
      simp only [Entry.lengthItems, Item.encodeAll_cons, List.append_assoc]
      exact List.append_ne_nil_of_left_ne_nil (Varint.encode_ne_nil _) _

/-- What is left of a block to index. -/
def WrittenBlock.ofPlan (stem : Bytes) (plan : BlockPlan) (fp : Nat) (entries : List Entry) :
    WrittenBlock :=
  { fp, stem := stem ++ (if plan.isFloor then plan.lead.toList else [])
    hasTerms := plan.hasTerms, isFloor := plan.isFloor, lead := plan.lead
    subIndexes := Lexicon.subIndexes entries }

/-- The items of a block whose lengths start with the given byte. -/
def blockItems (codec : LongsCodec) (hasFreqs : Bool) (depth : Nat) (leaf isLast : Bool)
    (entries : List Entry) (first : UInt8) (more : Bytes) : List Item :=
  [.nat32 (2 * entries.length + isLast.toNat)]
    ++ suffixItems (suffixBytes depth entries) leaf
      (compressSuffixes (suffixBytes depth entries) entries.length depth)
    ++ lengthsItems first more
    ++ [.block (BlockStats.encode hasFreqs ((termStates entries).map (·.toTermStats))),
      .block (Item.encodeAll (longsItems codec true (termStates entries)).1)]

/-- A block is never written as nothing. -/
theorem length_blockItems_pos (codec : LongsCodec) (hasFreqs : Bool) (depth : Nat)
    (leaf isLast : Bool) (entries : List Entry) (first : UInt8) (more : Bytes) :
    0 < (Item.encodeAll
      (blockItems codec hasFreqs depth leaf isLast entries first more)).length := by
  have hhead := List.length_pos_iff.mpr
    (Varint.encode_ne_nil (UInt32.ofNat (2 * entries.length + isLast.toNat)).toNat)
  simp only [blockItems, Item.encodeAll_append, List.length_append, Item.encodeAll_cons,
    Item.encodeAll_nil, List.length_nil]
  show 0 < (Varint.encode _).length + 0 + _ + _ + _
  omega

/-- A block whose entries belong into it is written. -/
theorem encodeBlock_eq_ok (codec : LongsCodec) (hasFreqs : Bool) {stem : Bytes} {plan : BlockPlan}
    {fp : Nat} {entries : List Entry} (isLast : Bool) {first : UInt8} {more : Bytes}
    (hsize : entries.length = plan.size)
    (hlead : ∀ e ∈ entries, e.notBefore stem.length plan.lead = true)
    (hinside : ∀ e ∈ entries, e.Inside stem (!plan.hasSubBlocks) fp)
    (hlengths : lengthBytes stem.length (!plan.hasSubBlocks) fp entries = first :: more) :
    encodeBlock codec hasFreqs stem plan fp entries isLast
      = .ok (blockItems codec hasFreqs stem.length (!plan.hasSubBlocks) isLast entries first more,
        .ofPlan stem plan fp entries, (longsItems codec true (termStates entries)).2) := by
  rw [encodeBlock, if_neg (not_not.mpr hsize),
    if_neg (by rw [List.all_eq_true.mpr hlead]; decide), forM_checkIn hinside]
  simp only [hlengths]
  rfl

/-- The parts of a block have lengths that it can store. -/
structure PartsFit (hasFreqs : Bool) (depth : Nat) (leaf : Bool) (fp : Nat)
    (entries : List Entry) : Prop where
  count : entries.length < 2 ^ 31
  short : ∀ e ∈ entries, e.Short depth
  suffixes : (suffixBytes depth entries).length < 2 ^ 32
  lengths : (lengthBytes depth leaf fp entries).length < 2 ^ 31
  stats : (BlockStats.encode hasFreqs ((termStates entries).map (·.toTermStats))).length < 2 ^ 32
  longs : (Item.encodeAll (longsItems {} true (termStates entries)).1).length < 2 ^ 32

/-- Every part of a block is as long as the load of its entries allows. -/
theorem partsFit_of_load (hasFreqs : Bool) (depth : Nat) (leaf : Bool) (fp : Nat)
    {entries : List Entry} (hload : load entries < 2 ^ 31) :
    PartsFit hasFreqs depth leaf fp entries := by
  have hterms := length_termStates_le entries
  have hstats := length_stats_le hasFreqs ((termStates entries).map (·.toTermStats)) 0
  rw [List.length_map] at hstats
  refine ⟨Nat.lt_of_le_of_lt (length_le_load entries) hload, fun e he => ?_,
    Nat.lt_of_le_of_lt (length_suffixBytes_le depth entries) (by omega),
    Nat.lt_of_le_of_lt (length_lengthBytes_le depth leaf fp entries) hload, ?_,
    Nat.lt_of_le_of_lt (length_longsItems_le entries {} true) (by omega)⟩
  · exact Entry.short_of_load depth
      (Nat.lt_of_le_of_lt (List.le_sum_of_mem (List.mem_map_of_mem he)) hload)
  · rw [BlockStats.encode]
    omega

/-- The parts of a block, read from their starts, are in front of all its entries; the codec which
wrote the metadata need not be the one which reads it. -/
theorem before_start (codec codec' : LongsCodec) {hasFreqs leaf : Bool} {depth fp : Nat}
    {entries : List Entry} {first : UInt8} {more : Bytes} (hcount : entries.length < 2 ^ 31)
    (hwritable : ∀ e ∈ entries, e.Writable leaf hasFreqs fp)
    (hlengths : lengthBytes depth leaf fp entries = first :: more) :
    Block.Parts.Before
      ⟨.start (suffixBytes depth entries), .start (first :: more),
        { input := .start (BlockStats.encode hasFreqs
            ((termStates entries).map (·.toTermStats))), hasFreqs },
        .start (Item.encodeAll (longsItems codec true (termStates entries)).1), codec', true⟩
      depth leaf hasFreqs fp entries := by
  have hterms : (termStates entries).length ≤ entries.length := List.length_filterMap_le ..
  refine ⟨rfl, hlengths.symm, BlockStats.Reader.before_start (by rw [List.length_map]; omega) ?_,
    ?_⟩
  · intro s hs
    obtain ⟨state, hstate, rfl⟩ := List.mem_map.mp hs
    obtain ⟨e, he, hterm⟩ := List.mem_filterMap.mp hstate
    cases e with
    | block b => simp at hterm
    | term key state' =>
      obtain rfl := Option.some.inj hterm
      exact hwritable _ he
  · show Item.encodeAll (longsItems codec true (termStates entries)).1
      = Item.encodeAll (longsItems codec' true (termStates entries)).1
    rw [longsItems_absolute codec codec']

/-- **The items of a block are read back wherever they stand**, by every codec. -/
theorem decode_blockItems (codec : LongsCodec) {hasFreqs leaf : Bool} {depth fp : Nat}
    {entries : List Entry} (isLast : Bool) {first : UInt8} {more : Bytes} (hne : entries ≠ [])
    (hfp : fp < 2 ^ 64) (hfit : PartsFit hasFreqs depth leaf fp entries)
    (hwritable : ∀ e ∈ entries, e.Writable leaf hasFreqs fp)
    (hlengths : lengthBytes depth leaf fp entries = first :: more)
    (before after : Bytes) (hbefore : before.length = fp) (c : LongsCodec) :
    ∃ compression codec', Block.decode
      (before ++ (Item.encodeAll (blockItems codec hasFreqs depth leaf isLast entries first more)
        ++ after)) hasFreqs fp c
      = .ok ⟨isLast, leaf, compression, (suffixBytes depth entries).length,
          entries.map (Entry.seen depth hasFreqs), fp + (Item.encodeAll
            (blockItems codec hasFreqs depth leaf isLast entries first more)).length⟩ codec' := by
  have hmore := hfit.lengths
  rw [hlengths, List.length_cons] at hmore
  have hsuffixes := hfit.suffixes
  have hlongs := hfit.longs
  rw [longsItems_absolute {} codec] at hlongs
  have hrestores : Block.Restores (suffixBytes depth entries)
      (compressSuffixes (suffixBytes depth entries) entries.length depth) := by
    intro kind payload h
    obtain ⟨hkind, hshorter, hrestored⟩ := decompress_compressSuffixes
      (fun _ => Lowercase.measured_of_length_lt hsuffixes) h
    exact ⟨hkind, by omega, hrestored⟩
  have hlayout := Block.readLayout_spec fp isLast leaf (List.length_pos_iff.mpr hne) hfit.count
    (by omega) hrestores hmore hfit.stats hlongs fp after
    (show Item.encodeAll (blockItems codec hasFreqs depth leaf isLast entries first more) = _
      from rfl)
  -- the parts are read in step, and nothing of them is left
  obtain ⟨p, hread, hend⟩ := Block.readEntries_spec hfp entries hfit.short hwritable
    (before_start codec c hfit.count hwritable hlengths)
  have hat : ∀ rest : Bytes, Cursor.at? (before ++ rest) fp = .ok ⟨fp, rest⟩ := by
    intro rest
    rw [Cursor.at?, if_pos (by rw [List.length_append]; omega), ← hbefore, List.drop_left]
  refine ⟨Block.storedAs (compressSuffixes (suffixBytes depth entries) entries.length depth),
    p.codec, ?_⟩
  rw [Block.decode, hat]
  simp only [hlayout, hread, Block.exhausted_of_before_nil hend, if_true]

/-- Entries of a small load are read back wherever they stand. -/
theorem reads_blockItems (codec : LongsCodec) {hasFreqs leaf : Bool} {depth fp : Nat}
    {entries : List Entry} (isLast : Bool) {first : UInt8} {more : Bytes} (hne : entries ≠ [])
    (hfp : fp < 2 ^ 64) (hload : load entries < 2 ^ 31)
    (hwritable : ∀ e ∈ entries, e.Writable leaf hasFreqs fp)
    (hlengths : lengthBytes depth leaf fp entries = first :: more)
    (before after : Bytes) (hbefore : before.length = fp) :
    Block.Reads
      (before ++ (Item.encodeAll (blockItems codec hasFreqs depth leaf isLast entries first more)
        ++ after)) hasFreqs fp depth isLast entries
      (fp + (Item.encodeAll
        (blockItems codec hasFreqs depth leaf isLast entries first more)).length) := by
  intro c
  obtain ⟨compression, codec', hdecode⟩ := decode_blockItems codec isLast hne hfp
    (partsFit_of_load hasFreqs depth leaf fp hload) hwritable hlengths before after hbefore c
  exact ⟨_, codec', hdecode, rfl, rfl, rfl⟩

/-- **A block whose entries belong into it is written, and every reader reads it back.** -/
theorem encodeBlock_spec (codec : LongsCodec) (hasFreqs : Bool) {stem : Bytes} {plan : BlockPlan}
    {fp : Nat} {entries : List Entry} (isLast : Bool) (hne : entries ≠ [])
    (hsize : entries.length = plan.size)
    (hlead : ∀ e ∈ entries, e.notBefore stem.length plan.lead = true)
    (hinside : ∀ e ∈ entries, e.Inside stem (!plan.hasSubBlocks) fp) :
    ∃ items codec', encodeBlock codec hasFreqs stem plan fp entries isLast
        = .ok (items, .ofPlan stem plan fp entries, codec') ∧
      0 < (Item.encodeAll items).length ∧
      (fp < 2 ^ 64 → load entries < 2 ^ 31 →
        (∀ e ∈ entries, e.Writable (!plan.hasSubBlocks) hasFreqs fp) →
        ∀ before after : Bytes, before.length = fp →
          Block.Reads (before ++ (Item.encodeAll items ++ after)) hasFreqs fp stem.length isLast
            entries (fp + (Item.encodeAll items).length)) := by
  obtain ⟨first, more, hlengths⟩ := List.exists_cons_of_ne_nil
    (lengthBytes_ne_nil stem.length (!plan.hasSubBlocks) fp hne)
  refine ⟨_, _, encodeBlock_eq_ok codec hasFreqs isLast hsize hlead hinside hlengths,
    length_blockItems_pos .., ?_⟩
  intro hfp hload hwritable before after hbefore
  exact reads_blockItems codec isLast hne hfp hload hwritable hlengths before after hbefore

end Lexicon

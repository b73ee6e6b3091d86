import Lexicon.Block.Reader
import Lexicon.Proofs.Reading

/-!
# What decoding a block says, whatever the bytes

The stream of blocks may hold anything here. A block that is read ends after its start
(`Block.lt_stop`), the sub-blocks it names start before it (`Block.lt_of_mem_entries`), and what the
codec remembers of another block has no part in it (`Block.decode_codec`), for the first term of a
block is stored by itself.
-/

namespace Lexicon

/-- A number that is read has at least one byte. -/
theorem Varint.group_pos {limit n length : Nat} {bs : Bytes}
    (h : group limit bs = some (n, length)) : 0 < length := by
  cases limit with
  | zero => cases h
  | succ limit =>
    cases bs with
    | nil => cases h
    | cons b rest =>
      rw [group] at h
      split at h
      · cases h
        exact Nat.one_pos
      · obtain ⟨_, -, heq⟩ := Option.map_eq_some_iff.mp h
        cases heq
        exact Nat.succ_pos _

/-! ## Reads go on -/

namespace Read

variable {α β : Type}

/-- A read that succeeds goes on by `k` bytes at least, and its value and end are so related. -/
def GoesOn (r : Read α) (k : Nat) (P : α → Cursor → Prop) : Prop :=
  ∀ c a c', r c = .ok a c' → c.position + k ≤ c'.position ∧ P a c'

/-- What a first step goes on by, the steps after it do not take back. -/
theorem GoesOn.bind {r : Read α} {f : α → Read β} {k : Nat} {Q : α → Cursor → Prop}
    {P : β → Cursor → Prop} (hr : r.GoesOn k Q) (hf : ∀ a, (f a).GoesOn 0 P) :
    (r >>= f).GoesOn k P := by
  intro c b c' h
  obtain ⟨a, mid, hfirst, hrest⟩ := exists_of_bind_ok h
  have hle := (hr _ _ _ hfirst).1
  obtain ⟨hle', hP⟩ := hf a _ _ _ hrest
  exact ⟨by omega, hP⟩

/-- A read that goes on goes on at least by nothing. -/
theorem GoesOn.weaken {r : Read α} {k : Nat} {P : α → Cursor → Prop} (h : r.GoesOn k P) :
    r.GoesOn 0 P := by
  intro c a c' hr
  obtain ⟨hle, hP⟩ := h _ _ _ hr
  exact ⟨by omega, hP⟩

/-- Giving a result reads nothing. -/
theorem goesOn_pure (a : α) : GoesOn (pure a) 0 fun _ _ => True := by
  intro c b c' h
  cases h
  exact ⟨Nat.le_refl _, trivial⟩

/-- What is corrupt is not read on. -/
theorem goesOn_corrupt (cause : Corruption) (f : α → Read β) (k : Nat)
    (P : β → Cursor → Prop) : GoesOn (corrupt cause >>= f) k P := by
  intro c b c' h
  cases h

/-- A computation without bytes reads nothing. -/
theorem goesOn_lift (x : Except Error α) : GoesOn (Block.lift x) 0 fun _ _ => True := by
  intro c a c' h
  cases x with
  | error e => cases h
  | ok a => exact goesOn_pure a _ _ _ h

/-- A byte is read forwards. -/
theorem goesOn_byte : GoesOn byte 0 fun _ _ => True := by
  rintro ⟨position, rest⟩ b c' h
  cases rest with
  | nil => cases h
  | cons b rest =>
    cases h
    exact ⟨Nat.le_succ _, trivial⟩

theorem goesOn_bytes (n : Nat) : GoesOn (bytes n) 0 fun _ _ => True := by
  intro c bs c' h
  simp only [bytes] at h
  split at h <;> cases h
  exact ⟨Nat.le_add_right _ _, trivial⟩

/-- A number is read forwards, by one byte or more. -/
theorem goesOn_varint (width : Nat) (malformed : Nat → Corruption) :
    GoesOn (varint width malformed) 1 fun _ _ => True := by
  intro c n c' h
  simp only [varint, Varint.decode] at h
  cases hgroup : Varint.group (Varint.maxLength width) c.rest with
  | none =>
    rw [hgroup] at h
    cases h
  | some found =>
    obtain ⟨m, length⟩ := found
    rw [hgroup] at h
    cases h
    exact ⟨Nat.add_le_add_left (Varint.group_pos hgroup) _, trivial⟩

theorem goesOn_vint : GoesOn vint 1 fun _ _ => True := goesOn_varint 32 _

theorem goesOn_vlong : GoesOn vlong 1 fun _ _ => True := goesOn_varint 64 _

theorem goesOn_block : GoesOn block 0 fun _ _ => True := goesOn_vint.weaken.bind goesOn_bytes

end Read

namespace Block

open Read

/-- The lengths of a block are read forwards. -/
theorem goesOn_readLengths : readLengths.GoesOn 0 fun _ _ => True := by
  refine goesOn_vint.weaken.bind fun code => ?_
  dsimp only
  split
  · refine goesOn_byte.bind fun b => ?_
    split
    · exact goesOn_corrupt _ _ _ _
    · exact goesOn_pure _
  · exact goesOn_bytes _

/-- The last parts of a block, whatever is made of them and their end. -/
theorem goesOn_lastParts {make : Bytes → Bytes → Bytes → Nat → Layout}
    (hmake : ∀ lengths stats longs stop, (make lengths stats longs stop).stop = stop) :
    (do
      let lengths ← readLengths
      let stats ← block
      let longs ← block
      return make lengths stats longs (← position) : Read Layout).GoesOn 0
        fun l c => l.stop = c.position := by
  refine goesOn_readLengths.bind fun lengths => goesOn_block.bind fun stats => ?_
  refine goesOn_block.bind fun longs => ?_
  intro c l c' h
  cases h
  exact ⟨Nat.le_refl _, hmake ..⟩

/-- The parts of a block end after its start. -/
theorem goesOn_readLayout (fp : Nat) :
    (readLayout fp).GoesOn 1 fun l c => l.stop = c.position := by
  refine goesOn_vint.bind fun head => ?_
  dsimp only
  split
  · exact goesOn_corrupt _ _ _ _
  · refine goesOn_vlong.weaken.bind fun token => ?_
    refine (goesOn_lift _).bind fun compression => ?_
    split
    · exact (goesOn_bytes _).bind fun suffixes => goesOn_lastParts fun _ _ _ _ => rfl
    · refine goesOn_block.bind fun stored => (goesOn_lift _).bind fun suffixes => ?_
      exact goesOn_lastParts fun _ _ _ _ => rfl

/-! ## Entries -/

/-- A sub-block starts before the block that names it. -/
theorem readEntry_before {fp : Nat} {leaf : Bool} {p p' : Parts} {suffix : Bytes} {child : Nat}
    (h : readEntry fp leaf p = .ok (.block suffix child) p') : child < fp := by
  obtain ⟨code, p₁, -, h⟩ := exists_of_bind_ok h
  obtain ⟨suffix', p₂, -, h⟩ := exists_of_bind_ok h
  split at h
  · obtain ⟨delta, p₃, -, h⟩ := exists_of_bind_ok h
    dsimp only at h
    split at h
    · cases h
    · cases h
      omega
  · obtain ⟨stats, p₃, -, h⟩ := exists_of_bind_ok h
    obtain ⟨longs, p₄, -, h⟩ := exists_of_bind_ok h
    cases h

/-- Blocks that a block names lie before it. -/
theorem readEntries_before {fp : Nat} {leaf : Bool} {count : Nat} :
    ∀ {p p' : Parts} {entries : List BlockEntry}, readEntries fp leaf count p = .ok entries p' →
      ∀ {suffix : Bytes} {child : Nat}, .block suffix child ∈ entries → child < fp := by
  induction count with
  | zero =>
    intro p p' entries h suffix child hmem
    cases h
    simp at hmem
  | succ count ih =>
    intro p p' entries h suffix child hmem
    obtain ⟨entry, p₁, hentry, h⟩ := exists_of_bind_ok h
    obtain ⟨rest, p₂, hrest, h⟩ := exists_of_bind_ok h
    cases h
    rcases List.mem_cons.mp hmem with rfl | hmem
    · exact readEntry_before hentry
    · exact ih hrest hmem

/-! ## The codec -/

namespace Parts

/-- The same parts of a block, but perhaps for a codec that no term has been read with. -/
def Alike (p q : Parts) : Prop := q = p ∨ p.absolute = true ∧ ∃ codec, q = { p with codec }

/-- What the codec remembers of another block has no part in what is read. -/
def Blind {α : Type} (m : EStateM Error Parts α) : Prop :=
  ∀ p q a p', Alike p q → m p = .ok a p' → ∃ q', m q = .ok a q' ∧ Alike p' q'

variable {α β : Type}

/-- One step after the other is blind to the codec if both are. -/
theorem Blind.bind {m : EStateM Error Parts α} {f : α → EStateM Error Parts β} (hm : Blind m)
    (hf : ∀ a, Blind (f a)) : Blind (m >>= f) := by
  intro p q b p' hpq h
  obtain ⟨a, mid, hfirst, hrest⟩ := exists_of_bind_ok h
  obtain ⟨mid', hfirst', hmid⟩ := hm p q a mid hpq hfirst
  obtain ⟨q', hrest', hlast⟩ := hf a mid mid' b p' hmid hrest
  exact ⟨q', by rw [bind_ok hfirst', hrest'], hlast⟩

theorem blind_pure (a : α) : Blind (pure a) := by
  intro p q b p' hpq h
  cases h
  exact ⟨q, rfl, hpq⟩

theorem blind_throw (e : Error) : Blind (throw e : EStateM Error Parts α) := by
  intro p q b p' _ h
  cases h

/-- The lengths of suffixes do not depend on the codec. -/
theorem blind_readLength (r : Read α) : Blind (readLength r) := by
  rintro p q a p' (rfl | ⟨habs, codec, rfl⟩) h
  · exact ⟨p', h, .inl rfl⟩
  · simp only [readLength] at h ⊢
    split at h <;> cases h
    exact ⟨_, rfl, .inr ⟨habs, codec, rfl⟩⟩

theorem blind_readSuffix (r : Read α) : Blind (readSuffix r) := by
  rintro p q a p' (rfl | ⟨habs, codec, rfl⟩) h
  · exact ⟨p', h, .inl rfl⟩
  · simp only [readSuffix] at h ⊢
    split at h <;> cases h
    exact ⟨_, rfl, .inr ⟨habs, codec, rfl⟩⟩

theorem blind_nextStats : Blind nextStats := by
  rintro p q a p' (rfl | ⟨habs, codec, rfl⟩) h
  · exact ⟨p', h, .inl rfl⟩
  · simp only [nextStats] at h ⊢
    split at h <;> cases h
    exact ⟨_, rfl, .inr ⟨habs, codec, rfl⟩⟩

/-- The first term of a block is read by itself. -/
theorem blind_nextLongs : Blind nextLongs := by
  rintro p q a p' (rfl | ⟨habs, codec, rfl⟩) h
  · exact ⟨p', h, .inl rfl⟩
  · -- from here on both codecs remember the same, so the parts are equal and not only alike
    have hsame : codec.decode p.absolute p.longs = p.codec.decode p.absolute p.longs := by
      simp only [LongsCodec.decode, LongsCodec.read, LongsCodec.before, habs, if_true]
    refine ⟨p', ?_, .inl rfl⟩
    rw [← h]
    simp only [nextLongs, hsame]

end Parts

/-- An entry is put together from parts that are read alike. -/
theorem blind_readEntry (fp : Nat) (leaf : Bool) : Parts.Blind (readEntry fp leaf) := by
  refine (Parts.blind_readLength _).bind fun code => ?_
  refine (Parts.blind_readSuffix _).bind fun suffix => ?_
  split
  · refine (Parts.blind_readLength _).bind fun delta => ?_
    dsimp only
    split
    · exact (Parts.blind_throw (α := PUnit) _).bind fun _ => Parts.blind_pure _
    · exact Parts.blind_pure _
  · exact Parts.blind_nextStats.bind fun stats => Parts.blind_nextLongs.bind fun longs =>
      Parts.blind_pure _

theorem blind_readEntries (fp : Nat) (leaf : Bool) (count : Nat) :
    Parts.Blind (readEntries fp leaf count) := by
  induction count with
  | zero => exact Parts.blind_pure []
  | succ count ih =>
    exact (blind_readEntry fp leaf).bind fun entry => ih.bind fun rest => Parts.blind_pure _

/-! ## Blocks -/

variable {terms : Bytes} {hasFreqs : Bool} {fp : Nat} {b : Block} {codec codec' : LongsCodec}

/-- The parts of the entries of a block, before any is read. -/
def Layout.parts (l : Layout) (hasFreqs : Bool) (codec : LongsCodec) : Parts :=
  ⟨.start l.suffixes, .start l.lengths, { input := .start l.stats, hasFreqs }, .start l.longs,
    codec, true⟩

/-- What is read where a block is. -/
theorem decode_eq_ok_iff : decode terms hasFreqs fp codec = .ok b codec' ↔
    ∃ input l c entries p, Cursor.at? terms fp = .ok input ∧ readLayout fp input = .ok l c ∧
      readEntries fp l.isLeaf l.count (l.parts hasFreqs codec) = .ok entries p ∧
      p.exhausted = true ∧ p.codec = codec' ∧
      b = ⟨l.isLast, l.isLeaf, l.compression, l.suffixBytes, entries, l.stop⟩ := by
  constructor
  · intro h
    simp only [decode] at h
    split at h
    · cases h
    rename_i input hinput
    split at h
    · cases h
    rename_i l c hlayout
    split at h
    · cases h
    rename_i entries p hentries
    split at h
    · rename_i hexhausted
      cases h
      exact ⟨input, l, c, entries, p, hinput, hlayout, hentries, hexhausted, rfl, rfl⟩
    · cases h
  · rintro ⟨input, l, c, entries, p, hinput, hlayout, hentries, hexhausted, rfl, rfl⟩
    rw [Layout.parts] at hentries
    simp only [decode, hinput, hlayout, hentries, hexhausted, if_true]

/-- **A block ends after its start.** -/
theorem lt_stop (h : decode terms hasFreqs fp codec = .ok b codec') : fp < b.stop := by
  obtain ⟨input, l, c, entries, p, hinput, hlayout, -, -, -, rfl⟩ := decode_eq_ok_iff.mp h
  obtain ⟨hle, hend⟩ := goesOn_readLayout fp _ _ _ hlayout
  rw [Cursor.at?] at hinput
  split at hinput <;> cases hinput
  show fp < l.stop
  rw [hend]
  exact hle

/-- **The sub-blocks of a block start before it.** -/
theorem lt_of_mem_entries (h : decode terms hasFreqs fp codec = .ok b codec') {suffix : Bytes}
    {child : Nat} (hmem : .block suffix child ∈ b.entries) : child < fp := by
  obtain ⟨input, l, c, entries, p, -, -, hentries, -, -, rfl⟩ := decode_eq_ok_iff.mp h
  exact readEntries_before hentries hmem

/-- **Whatever the codec, the same block is read.** -/
theorem decode_codec (h : decode terms hasFreqs fp codec = .ok b codec') (other : LongsCodec) :
    ∃ other', decode terms hasFreqs fp other = .ok b other' := by
  obtain ⟨input, l, c, entries, p, hinput, hlayout, hentries, hexhausted, -, rfl⟩ :=
    decode_eq_ok_iff.mp h
  obtain ⟨p', hentries', hp'⟩ := blind_readEntries fp l.isLeaf l.count _ (l.parts hasFreqs other)
    entries p (.inr ⟨rfl, other, rfl⟩) hentries
  have hexhausted' : p'.exhausted = true := by
    rcases hp' with rfl | ⟨-, codec, rfl⟩ <;> exact hexhausted
  exact ⟨p'.codec, decode_eq_ok_iff.mpr
    ⟨input, l, c, entries, p', hinput, hlayout, hentries', hexhausted', rfl, rfl⟩⟩

end Block

end Lexicon

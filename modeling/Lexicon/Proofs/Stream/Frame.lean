import Lexicon.Proofs.Reading
import Lexicon.Proofs.Text.Utf8
import Lexicon.Segment.Streams

/-!
# Streams in memory, from header to footer

A stream in memory takes whatever is written, so writing is appending (`Output.Holds`), and the
digest that goes into the footer is that of the bytes the sink holds.

> **`Frame.checkFooter_eq_ok_iff`** — a stream is accepted just if it was ended, and known to end
> where it did;
> **`Frame.readHeader_eq_ok_iff`** — and a header just if all is as expected.
-/

namespace Lexicon

namespace Bytes

/-- A row of bytes is written back as it was read. -/
theorem littleEndian_ofLittleEndian (bs : Bytes) :
    littleEndian bs.length (ofLittleEndian bs) = bs := by
  induction bs with
  | nil => rfl
  | cons b rest ih =>
    have hbyte := b.toNat_lt
    have hlow : UInt8.ofNat (b.toNat + 256 * ofLittleEndian rest) = b := by
      refine UInt8.toNat_inj.mp ?_
      rw [UInt8.toNat_ofNat']
      omega
    have hhigh : (b.toNat + 256 * ofLittleEndian rest) / 256 = ofLittleEndian rest := by omega
    rw [ofLittleEndian, List.length_cons, littleEndian, hlow, hhigh, ih]

/-- A word is made of the bytes of the number that it reads as. -/
theorem eq_littleEndian {bs : Bytes} {width n : Nat} (hwidth : bs.length = width)
    (h : ofLittleEndian bs = n) : bs = littleEndian width n := by
  rw [← hwidth, ← h, littleEndian_ofLittleEndian]

end Bytes

namespace Output

/-- The sink holds just these bytes, the digest has taken them, and more can be written. -/
structure Holds (out : Output Memory) (bs : Bytes) : Prop where
  sound : out.sink.failing = false
  unbounded : out.sink.limit = none
  bytes : out.sink.bytes = bs
  digest : out.digest = ({} : Digest).update bs

variable {out : Output Memory} {bs : Bytes}

/-- The position is that of the bytes written so far. -/
theorem Holds.position (h : out.Holds bs) : out.position = bs.length := by
  rw [Output.position, h.digest, Digest.length_update]
  exact Nat.zero_add _

theorem holds_empty (name : String) : Holds ⟨name, {}, {}⟩ [] := ⟨rfl, rfl, rfl, rfl⟩

/-- A sink in memory accepts everything. -/
theorem Holds.accepts (h : out.Holds bs) (n : Nat) : out.sink.accepts n = true := by
  rw [Memory.accepts, h.sound, h.unbounded]
  rfl

/-- A portion is added in memory. -/
theorem portion_spec (h : out.Holds bs) (more : Bytes) :
    ∃ out', portion more out = .ok () out' ∧ out'.Holds (bs ++ more) := by
  rw [portion]
  split
  next hempty =>
    refine ⟨out, rfl, ?_⟩
    rwa [List.isEmpty_iff.mp hempty, List.append_nil]
  next =>
    have hwrite : Sink.write out.sink more
        = (.ok (), { out.sink with data := out.sink.data ++ more }) := if_pos (h.accepts _)
    rw [hwrite]
    refine ⟨_, rfl, h.sound, h.unbounded, ?_, ?_⟩
    · have hbytes := h.bytes
      rw [Memory.bytes] at hbytes
      rw [Memory.bytes, Array.toList_appendList, hbytes]
    · show out.digest.update more = _
      rw [h.digest, Digest.update_append]

/-- Portions are added in memory one after the other. -/
theorem portions_spec (portions' : List Bytes) :
    ∀ {out : Output Memory} {bs : Bytes}, out.Holds bs →
      ∃ out', portions portions' out = .ok () out' ∧ out'.Holds (bs ++ portions'.flatten) := by
  induction portions' with
  | nil =>
    intro out bs h
    refine ⟨out, rfl, ?_⟩
    rwa [List.flatten_nil, List.append_nil]
  | cons more rest ih =>
    intro out bs h
    obtain ⟨mid, hmid, hholds⟩ := portion_spec h more
    obtain ⟨out', hout', hholds'⟩ := ih hholds
    refine ⟨out', (bind_ok hmid).trans hout', ?_⟩
    rwa [List.flatten_cons, ← List.append_assoc]

/-- The pieces of items are their bytes. -/
theorem flatten_pieces (items' : List Item) :
    (items'.flatMap Item.pieces).flatten = Item.encodeAll items' := by
  induction items' with
  | nil => rfl
  | cons item rest ih =>
    rw [List.flatMap_cons, List.flatten_append, ih, Item.flatten_pieces, Item.encodeAll_cons]

/-- **Writing items appends their bytes.** -/
theorem items_spec (h : out.Holds bs) (items' : List Item) :
    ∃ out', items items' out = .ok () out' ∧ out'.Holds (bs ++ Item.encodeAll items') := by
  obtain ⟨out', hout', hholds⟩ := portions_spec (items'.flatMap Item.pieces) h
  exact ⟨out', hout', flatten_pieces items' ▸ hholds⟩

/-- A flush in memory changes no bytes. -/
theorem flush_spec (h : out.Holds bs) : ∃ out', flush out = .ok () out' ∧ out'.Holds bs := by
  have hflush : Sink.flush out.sink = (.ok (), out.sink) := by
    show ((if out.sink.failing then _ else _ : Except MediumFault Unit), out.sink) = _
    rw [h.sound]
    rfl
  refine ⟨out, ?_, h⟩
  rw [flush, hflush]

end Output

namespace Frame

open Read

/-- The footer before its checksum. -/
def mark : Bytes := Item.encodeAll [.u32 footerMagic, .u32 algorithm]

/-- The bytes of a stream that was ended. -/
def framed (bs : Bytes) : Bytes :=
  bs ++ mark ++ (Item.u64 (checksum (bs ++ mark))).encode

/-- **Ending a stream in memory.** -/
theorem writeFooter_spec {out : Output Memory} {bs : Bytes} (h : out.Holds bs) :
    ∃ out', writeFooter out = .ok () out' ∧ out'.Holds (framed bs) := by
  obtain ⟨mid, hmid, hholds⟩ := Output.items_spec h [.u32 footerMagic, .u32 algorithm]
  obtain ⟨out', hout', hholds'⟩ := Output.items_spec hholds [.u64 mid.digest.value]
  refine ⟨out', (bind_ok hmid).trans hout', ?_⟩
  rw [Item.encodeAll_singleton, hholds.digest] at hholds'
  exact hholds'

theorem length_mark : mark.length = 8 := by decide

/-- A frame adds 16 bytes. -/
theorem length_framed (bs : Bytes) : (framed bs).length = bs.length + 16 := by
  rw [framed, List.length_append, List.length_append, length_mark, Item.encode,
    Bytes.length_littleEndian]

/-- **A stream that was ended is accepted.** -/
theorem checkFooter_framed (bs : Bytes) (stream : String) :
    checkFooter (framed bs) stream = .ok bs.length := by
  have hlength := length_framed bs
  have hfooter : (framed bs).drop ((framed bs).length - footerLength)
      = mark ++ (Item.u64 (checksum (bs ++ mark))).encode := by
    rw [hlength, footerLength, Nat.add_sub_cancel, framed, List.append_assoc, List.drop_left]
  have hbody : (framed bs).take ((framed bs).length - 8) = bs ++ mark := by
    rw [hlength, framed]
    refine List.take_left' ?_
    rw [List.length_append, length_mark]
    omega
  have hsum : Bytes.ofLittleEndian (Item.u64 (checksum (bs ++ mark))).encode
      = (checksum (bs ++ mark)).toNat := by
    rw [Item.encode, Bytes.ofLittleEndian_littleEndian]
    exact Nat.mod_eq_of_lt (checksum (bs ++ mark)).toNat_lt
  have hdrop : (mark ++ (Item.u64 (checksum (bs ++ mark))).encode).drop 8
      = (Item.u64 (checksum (bs ++ mark))).encode := List.drop_left' length_mark
  have hmagic : Bytes.ofLittleEndian
      ((mark ++ (Item.u64 (checksum (bs ++ mark))).encode).take 4) = footerMagic.toNat := by
    rw [List.take_append_of_le_length (by rw [length_mark]; decide)]
    decide
  have hkind : Bytes.ofLittleEndian
      (((mark ++ (Item.u64 (checksum (bs ++ mark))).encode).drop 4).take 4) = algorithm.toNat := by
    rw [List.drop_append_of_le_length (by rw [length_mark]; decide),
      List.take_append_of_le_length (by decide)]
    decide
  have hsize : ¬ (framed bs).length < footerLength := by
    rw [hlength, footerLength]
    omega
  -- each check in turn compares a thing with itself
  rw [checkFooter]
  simp only [hfooter, hbody, hdrop, hsum, hmagic, hkind, if_neg hsize]
  show (if footerMagic.toNat ≠ footerMagic.toNat then _ else _) = _
  rw [if_neg (by simp)]
  show (if algorithm.toNat ≠ algorithm.toNat then _ else _) = _
  rw [if_neg (by simp)]
  show (if (checksum (bs ++ mark)).toNat ≠ _ then _ else _) = _
  rw [if_neg (by simp), hlength, footerLength, Nat.add_sub_cancel]
  rfl

/-- **Nothing is accepted but a stream that was ended.** -/
theorem framed_of_checkFooter {data : Bytes} {stream : String} {n : Nat}
    (h : checkFooter data stream = .ok n) : framed (data.take n) = data := by
  rw [checkFooter] at h
  dsimp only at h
  split at h
  · cases h
  next hlong =>
  split at h
  · cases h
  next hmagic =>
  split at h
  · cases h
  next hkind =>
  split at h
  · cases h
  next hsum =>
  obtain rfl : data.length - footerLength = n := Except.ok.inj h
  rw [footerLength, Nat.not_lt] at hlong
  rw [ne_eq, Decidable.not_not] at hmagic hkind hsum
  have hlength : (data.drop (data.length - footerLength)).length = 16 := by
    rw [List.length_drop, footerLength]
    omega
  have hstart : data.length - 8 = data.length - footerLength + 8 := by
    rw [footerLength]
    omega
  rw [hstart, List.take_add] at hsum
  generalize data.length - footerLength = n at hmagic hkind hsum hlength ⊢
  generalize hfooter : data.drop n = footer at hmagic hkind hsum hlength
  -- the footer is three words, and each is the one that was looked for
  have hfirst : footer.take 4 = Bytes.littleEndian 4 footerMagic.toNat :=
    Bytes.eq_littleEndian (by rw [List.length_take, hlength]; rfl) hmagic
  have hsecond : (footer.drop 4).take 4 = Bytes.littleEndian 4 algorithm.toNat :=
    Bytes.eq_littleEndian (by rw [List.length_take, List.length_drop, hlength]; rfl) hkind
  have hmark : footer.take 8 = mark := by
    rw [show (8 : Nat) = 4 + 4 from rfl, List.take_add, hfirst, hsecond]
    rfl
  have hlast : (Item.u64 (checksum (data.take n ++ mark))).encode = footer.drop 8 := by
    rw [hmark] at hsum
    exact (Bytes.eq_littleEndian (by rw [List.length_drop, hlength]) hsum).symm
  rw [framed, hlast, ← hmark, List.append_assoc, List.take_append_drop, ← hfooter,
    List.take_append_drop]

/-- **A stream is accepted just if it was ended**, and is known to end where it did. -/
theorem checkFooter_eq_ok_iff {data : Bytes} {stream : String} {n : Nat} :
    checkFooter data stream = .ok n ↔ framed (data.take n) = data := by
  refine ⟨framed_of_checkFooter, fun h => ?_⟩
  have hlength := congrArg List.length h
  rw [length_framed, List.length_take] at hlength
  have haccepted := checkFooter_framed (data.take n) stream
  rw [h, List.length_take] at haccepted
  rw [haccepted, Nat.min_eq_left (by omega)]

/-- A word of 32 bits is taken. -/
theorem takes_u32 (n : UInt32) : Takes (word 4) (Item.u32 n).encode n.toNat :=
  takes_word (Nat.lt_of_lt_of_le n.toNat_lt (by decide))

/-- An identifier of 16 bytes is taken. -/
theorem takes_id {id : Bytes} (hid : id.length = 16) :
    Takes (bytes 16) (Item.bytes id).encode id := by
  have htakes := takes_bytes id
  rwa [hid] at htakes

/-- **A header is accepted.** -/
theorem takes_readHeader {want : Expectation} {version : UInt32}
    (hversion : want.minVersion ≤ version.toNat ∧ version.toNat ≤ want.maxVersion)
    (hcodec : (Bytes.ofString want.codec).length < 2 ^ 32) (hid : want.id.length = 16)
    (hsuffix : (Bytes.ofString want.suffix).length < 2 ^ 32) :
    Takes (readHeader want) (Item.encodeAll (header want.codec version want.id want.suffix))
      version.toNat := by
  simp only [header, Item.text, Item.encodeAll_cons, Item.encodeAll_nil, List.append_nil]
  rw [readHeader]
  refine (takes_u32 magic).bind ?_
  show Takes (if magic.toNat ≠ magic.toNat then _ else _) _ _
  rw [if_neg (by simp)]
  refine (takes_block_item hcodec).bind ?_
  show Takes (if Bytes.ofString want.codec ≠ _ then _ else _) _ _
  rw [if_neg (by simp)]
  refine (takes_u32 version).bind ?_
  show Takes
    (if version.toNat < want.minVersion ∨ want.maxVersion < version.toNat then _ else _) _ _
  rw [if_neg (by omega)]
  refine (takes_id hid).bind ?_
  show Takes (if want.id ≠ want.id then _ else _) _ _
  rw [if_neg (by simp)]
  refine (takes_block_item hsuffix).bind_last ?_
  show Takes (if Bytes.ofString want.suffix ≠ _ then _ else _) _ _
  rw [if_neg (by simp)]
  exact takes_pure _

/-- What is wanted of a header, and what the header says. -/
structure Expectation.Meets (want : Expectation) (codec : String) (version : UInt32) (id : Bytes)
    (suffix : String) : Prop where
  codec_eq : want.codec = codec
  id_eq : want.id = id
  suffix_eq : want.suffix = suffix
  version_mem : want.minVersion ≤ version.toNat ∧ version.toNat ≤ want.maxVersion

/-- Past a test that a computation does not fail at. -/
theorem of_guard_ok {α : Type} {p : Prop} [Decidable p] {cause : Corruption} {r : Read α}
    {c c' : Cursor} {a : α}
    (h : (if p then corrupt cause >>= fun _ : Unit => r else r) c = .ok a c') :
    ¬ p ∧ r c = .ok a c' := by
  split at h
  · cases h
  · exact ⟨‹_›, h⟩

/-- A header that is accepted is as expected, as far as the lengths in it fit. -/
theorem of_readHeader_ok {want : Expectation} {codec suffix : String} {version : UInt32}
    {id : Bytes} {position v : Nat} {rest : Bytes} {c : Cursor}
    (h : readHeader want ⟨position, Item.encodeAll (header codec version id suffix) ++ rest⟩
      = .ok v c)
    (hcodec : (Bytes.ofString codec).length < 2 ^ 32) (hid : id.length = 16) :
    want.codec = codec ∧ want.id = id ∧
      ((Bytes.ofString suffix).length < 2 ^ 32 → want.Meets codec version id suffix) := by
  simp only [header, Item.text, Item.encodeAll_cons, Item.encodeAll_nil, List.append_nil,
    List.append_assoc] at h
  rw [readHeader, bind_ok (takes_u32 magic _ _)] at h
  obtain ⟨-, h⟩ := of_guard_ok h
  rw [bind_ok (takes_block_item hcodec _ _)] at h
  obtain ⟨hcodec, h⟩ := of_guard_ok h
  rw [bind_ok (takes_u32 version _ _)] at h
  obtain ⟨hversion, h⟩ := of_guard_ok h
  rw [bind_ok (takes_id hid _ _)] at h
  obtain ⟨hid, h⟩ := of_guard_ok h
  rw [ne_eq, Decidable.not_not] at hcodec hid
  have hcodec := Bytes.ofString_inj hcodec
  refine ⟨hcodec.symm, hid.symm, fun hsuffix => ⟨hcodec.symm, hid.symm, ?_, by omega⟩⟩
  rw [bind_ok (takes_block_item hsuffix _ _)] at h
  obtain ⟨hsuffix, -⟩ := of_guard_ok h
  rw [ne_eq, Decidable.not_not] at hsuffix
  exact (Bytes.ofString_inj hsuffix).symm

/-- **A header is accepted just if it is as expected**, and then the reader is behind it. -/
theorem readHeader_eq_ok_iff {want : Expectation} {codec suffix : String} {version : UInt32}
    {id : Bytes} {position v : Nat} {rest : Bytes} {c : Cursor}
    (hcodec : (Bytes.ofString codec).length < 2 ^ 32) (hid : id.length = 16)
    (hsuffix : (Bytes.ofString suffix).length < 2 ^ 32) :
    readHeader want ⟨position, Item.encodeAll (header codec version id suffix) ++ rest⟩ = .ok v c ↔
      want.Meets codec version id suffix ∧ v = version.toNat ∧
        c = ⟨position + (Item.encodeAll (header codec version id suffix)).length, rest⟩ := by
  constructor
  · intro h
    have hmeets := (of_readHeader_ok h hcodec hid).2.2 hsuffix
    obtain ⟨rfl, rfl, rfl, hversion⟩ := hmeets
    rw [takes_readHeader hversion hcodec hid hsuffix position rest] at h
    cases h
    exact ⟨⟨rfl, rfl, rfl, hversion⟩, rfl, rfl⟩
  · rintro ⟨⟨rfl, rfl, rfl, hversion⟩, rfl, rfl⟩
    exact takes_readHeader hversion hcodec hid hsuffix position rest

/-- The lengths have to fit: where longer names are expected, nothing is accepted, not even a header
that was written with them. -/
theorem lengths_of_readHeader_ok {want : Expectation} {v : Nat} {c c' : Cursor}
    (h : readHeader want c = .ok v c') :
    (Bytes.ofString want.codec).length < 2 ^ 32 ∧ (Bytes.ofString want.suffix).length < 2 ^ 32 := by
  rw [readHeader] at h
  obtain ⟨_, _, -, h⟩ := exists_of_bind_ok h
  obtain ⟨-, h⟩ := of_guard_ok h
  obtain ⟨codec, _, hcodec, h⟩ := exists_of_bind_ok h
  obtain ⟨hcodec', h⟩ := of_guard_ok h
  obtain ⟨_, _, -, h⟩ := exists_of_bind_ok h
  obtain ⟨-, h⟩ := of_guard_ok h
  obtain ⟨_, _, -, h⟩ := exists_of_bind_ok h
  obtain ⟨-, h⟩ := of_guard_ok h
  obtain ⟨suffix, _, hsuffix, h⟩ := exists_of_bind_ok h
  obtain ⟨hsuffix', -⟩ := of_guard_ok h
  rw [ne_eq, Decidable.not_not] at hcodec' hsuffix'
  exact ⟨hcodec' ▸ gives_block _ _ _ hcodec, hsuffix' ▸ gives_block _ _ _ hsuffix⟩

end Frame

end Lexicon

import Lexicon.Proofs.Bits
import Lexicon.Proofs.Reading

/-!
# Bits packed piece by piece

Numbers are packed into bytes without a row of bits being made of them: what the byte at hand has
room for is cut off the top of a number, until nothing is left of it (`Packer.put`). They are read
likewise (`Unpacker.get`). A packer keeps a full byte until more bits come, an unpacker lets go of
one as soon as it is used up.

> **`row_read_back`** — the bytes are those of the numbers' bits, put together and filled up with
> zeros, whatever the widths, and the numbers are read back.

Both are tied to rows of bits by what they hold (`Packer.Holds`, `Unpacker.bits`), and a piece is
the front of the bits that remain of a number (`bits_add`).
-/

namespace Lexicon.Packed

/-- The bits of a number are its high ones and then the low ones. -/
theorem bits_add (high low n : Nat) :
    bits (high + low) n = bits high (n >>> low) ++ bits low n := by
  induction high with
  | zero => rw [Nat.zero_add]; rfl
  | succ high ih =>
    rw [Nat.succ_add, bits, ih, bits, Nat.testBit_shiftRight, Nat.add_comm low, List.cons_append]

/-- A piece of a number: its low bits without the last ones. -/
theorem bits_sub {width count : Nat} (h : count ≤ width) (n : Nat) :
    bits width n = bits count (n >>> (width - count)) ++ bits (width - count) n := by
  rw [← bits_add, Nat.add_sub_cancel' h]

theorem unpack_cons (b : UInt8) (bs : Bytes) : unpack (b :: bs) = bits 8 b.toNat ++ unpack bs := rfl

/-- The bits of bytes come one byte after the other. -/
theorem unpack_append (a b : Bytes) : unpack (a ++ b) = unpack a ++ unpack b := by
  rw [unpack, List.flatMap_append]
  rfl

/-- The bits of a byte are packed as the byte. -/
theorem byte_bits (b : UInt8) : byte (bits 8 b.toNat) = b := by
  refine UInt8.toNat_inj.mp ?_
  rw [byte, length_bits, ofBits_bits, Nat.mod_eq_of_lt b.toNat_lt, UInt8.toNat_ofNat']
  simp

/-- Whole bytes are packed as they are. -/
theorem pack_unpack_append (bs : Bytes) (tail : List Bool) :
    pack (unpack bs ++ tail) = bs ++ pack tail := by
  induction bs with
  | nil => rfl
  | cons b bs ih =>
    have hfront : (bits 8 b.toNat ++ (unpack bs ++ tail)).take 8 = bits 8 b.toNat :=
      List.take_left' (length_bits ..)
    have hrest : (bits 8 b.toNat ++ (unpack bs ++ tail)).drop 8 = unpack bs ++ tail :=
      List.drop_left' (length_bits ..)
    have hne : (bits 8 b.toNat ++ (unpack bs ++ tail)).isEmpty = false := rfl
    rw [unpack_cons, List.append_assoc, pack, hne, hfront, hrest, byte_bits, ih]
    rfl

theorem pack_nil : pack [] = [] := by
  rw [pack]
  rfl

/-- At most eight bits are packed as one byte, if there are any. -/
theorem pack_of_length_le {bs : List Bool} (hne : bs ≠ []) (h : bs.length ≤ 8) :
    pack bs = [byte bs] := by
  rw [pack, if_neg (by simpa using hne), List.take_of_length_le h, List.drop_of_length_le h,
    pack_nil]

/-! ## Packing -/

/-- Bytes that are being filled. -/
structure Packer where
  /-- What there was before, and the full bytes behind it. -/
  done : Bytes
  /-- The byte at hand, the bits that it has so far at its top. -/
  current : Nat := 0
  /-- Number of bits that the byte at hand has room for. -/
  free : Nat := 8

namespace Packer

/-- Lays the byte at hand aside if it is full. -/
def turn (p : Packer) : Packer :=
  if p.free = 0 then ⟨p.done ++ [UInt8.ofNat p.current], 0, 8⟩ else p

/-- After a turn there is a free bit. -/
theorem turn_free_pos (p : Packer) : 0 < p.turn.free := by
  rw [turn]
  split
  next => exact Nat.zero_lt_succ 7
  next hne => exact Nat.pos_of_ne_zero hne

/-- Puts the low bits of a number into the bytes, as many of them at a time as the byte at hand has
room for. -/
def put (p : Packer) (n width : Nat) : Packer :=
  if width = 0 then p
  else
    let count := min p.turn.free width
    let piece := n >>> (width - count) % 2 ^ count
    put ⟨p.turn.done, p.turn.current ||| piece <<< (p.turn.free - count), p.turn.free - count⟩ n
      (width - count)
termination_by width
decreasing_by
  have := p.turn_free_pos
  omega

/-- Puts numbers of given widths, one after the other. -/
def puts (p : Packer) (row : List (Nat × Nat)) : Packer :=
  row.foldl (fun p (n, width) => p.put n width) p

/-- The bytes in the end, the last one filled up with zeros. -/
def flush (p : Packer) : Bytes :=
  if p.free < 8 then p.done ++ [UInt8.ofNat p.current] else p.done

/-- Behind what there was before, the packer holds these bits: those of the full bytes, and those in
the byte at hand. -/
def Holds (p : Packer) (before : Bytes) (bs : List Bool) : Prop :=
  ∃ full filled, p.done = before ++ full ∧ bs = unpack full ++ filled ∧
    filled.length + p.free = 8 ∧ p.current = ofBits filled * 2 ^ p.free

variable {p : Packer} {before : Bytes} {bs : List Bool}

/-- A packer at the start of a byte holds no bits. -/
theorem holds_start (before : Bytes) : Holds ⟨before, 0, 8⟩ before [] :=
  ⟨[], [], by simp, rfl, rfl, rfl⟩

/-- A turn loses no bits. -/
theorem Holds.turn (h : p.Holds before bs) : p.turn.Holds before bs := by
  obtain ⟨full, filled, hdone, rfl, hlength, hcurrent⟩ := h
  rw [Packer.turn]
  split
  next hfull =>
    have hbyte : UInt8.ofNat p.current = byte filled := by
      rw [byte, hcurrent, show 8 - filled.length = p.free by omega]
    have height : bits 8 (byte filled).toNat = filled := by
      rw [bits_byte (by omega), show 8 - filled.length = 0 by omega]
      simp
    refine ⟨full ++ [byte filled], [], by rw [hdone, hbyte, List.append_assoc], ?_, rfl, rfl⟩
    rw [unpack_append, unpack_cons, height]
    simp [unpack]
  next => exact ⟨full, filled, hdone, rfl, hlength, hcurrent⟩

/-- A piece goes behind the bits that the byte at hand has. -/
theorem Holds.piece (h : p.Holds before bs) {count : Nat} (hcount : count ≤ p.free) (m : Nat) :
    Holds ⟨p.done, p.current ||| (m % 2 ^ count) <<< (p.free - count), p.free - count⟩ before
      (bs ++ bits count m) := by
  obtain ⟨full, filled, hdone, rfl, hlength, hcurrent⟩ := h
  refine ⟨full, filled ++ bits count m, hdone, List.append_assoc .., ?_, ?_⟩
  · rw [List.length_append, length_bits]
    show filled.length + count + (p.free - count) = 8
    omega
  · obtain ⟨less, hless⟩ := Nat.exists_eq_add_of_le hcount
    have hpiece : m % 2 ^ count * 2 ^ less < 2 ^ p.free := by
      rw [hless, Nat.pow_add]
      exact Nat.mul_lt_mul_of_pos_right (Nat.mod_lt _ (Nat.two_pow_pos _)) (Nat.two_pow_pos _)
    show p.current ||| (m % 2 ^ count) <<< (p.free - count) = _ * 2 ^ (p.free - count)
    rw [show p.free - count = less by omega, Nat.shiftLeft_eq, hcurrent,
      Nat.mul_comm (ofBits filled), ← Nat.two_pow_add_eq_or_of_lt hpiece, ofBits_append,
      ofBits_bits, length_bits, hless, Nat.pow_add]
    ring

/-- **Putting a number puts its bits.** -/
theorem put_spec (n width : Nat) : ∀ {p : Packer} {bs : List Bool}, p.Holds before bs →
    (p.put n width).Holds before (bs ++ bits width n) := by
  induction width using Nat.strongRecOn with
  | ind width ih =>
    intro p bs h
    rw [put]
    split
    next hzero =>
      subst hzero
      rwa [bits, List.append_nil]
    next hne =>
      have hpos := p.turn_free_pos
      have hmin : min p.turn.free width ≤ width := Nat.min_le_right ..
      have hpiece := h.turn.piece (Nat.min_le_left p.turn.free width)
        (n >>> (width - min p.turn.free width))
      have hrest := ih (width - min p.turn.free width) (by omega) hpiece
      rw [List.append_assoc, ← bits_sub hmin] at hrest
      exact hrest

/-- The numbers of a row are put one after the other. -/
theorem puts_spec (row : List (Nat × Nat)) : ∀ {p : Packer} {bs : List Bool}, p.Holds before bs →
    (p.puts row).Holds before (bs ++ row.flatMap fun (n, width) => bits width n) := by
  induction row with
  | nil =>
    intro p bs h
    rwa [List.flatMap_nil, List.append_nil]
  | cons entry row ih =>
    intro p bs h
    rw [List.flatMap_cons, ← List.append_assoc]
    exact ih (put_spec entry.1 entry.2 h)

/-- **In the end the bits are packed.** -/
theorem flush_spec (h : p.Holds before bs) : p.flush = before ++ pack bs := by
  obtain ⟨full, filled, hdone, rfl, hlength, hcurrent⟩ := h
  rw [flush, pack_unpack_append, hdone]
  split
  next hfree =>
    have hne : filled ≠ [] := by
      rintro rfl
      rw [List.length_nil, Nat.zero_add] at hlength
      omega
    rw [pack_of_length_le hne (by omega), byte, hcurrent, show 8 - filled.length = p.free by omega,
      List.append_assoc]
  next hfree =>
    have hnil : filled = [] := List.length_eq_zero_iff.mp (by omega)
    rw [hnil, pack_nil, List.append_nil]

end Packer

/-! ## Unpacking -/

/-- Bytes that are being taken apart. -/
structure Unpacker where
  /-- The bytes behind the one at hand. -/
  rest : Bytes
  /-- The byte at hand. -/
  current : Nat := 0
  /-- Number of bits that the byte at hand still has, at its bottom. -/
  left : Nat := 0

namespace Unpacker

/-- Takes a number of the given width, as many bits at a time as the byte at hand has. What was
taken before them spells `value`. -/
def get (value width : Nat) : Unpacker → EStateM.Result Error Unpacker Nat
  | ⟨rest, current, left⟩ =>
    if width = 0 then .ok value ⟨rest, current, left⟩
    else if left = 0 then
      match rest with
      | [] => .error (.corrupt .packedTruncated) ⟨[], current, left⟩
      | b :: rest => get value width ⟨rest, b.toNat, 8⟩
    else
      let count := min left width
      let piece := current >>> (left - count) % 2 ^ count
      get ((value <<< count ||| piece) % 2 ^ 64) (width - count) ⟨rest, current, left - count⟩
termination_by u => (width, u.rest.length)
decreasing_by
  · exact Prod.Lex.right _ (Nat.lt_succ_self _)
  · exact Prod.Lex.left _ _ (by omega)

/-- Takes a number of the given width. -/
def read (width : Nat) : EStateM Error Unpacker Nat := get 0 width

/-- The bits that are left. -/
def bits (u : Unpacker) : List Bool := Packed.bits u.left u.current ++ unpack u.rest

/-- A result, and the bits that are left. -/
def seen {α : Type} : EStateM.Result Error Unpacker α → EStateM.Result Error (List Bool) α
  | .ok a u => .ok a u.bits
  | .error e u => .error e u.bits

/-- What is seen to succeed has succeeded. -/
theorem of_seen_eq_ok {α : Type} {result : EStateM.Result Error Unpacker α} {a : α}
    {left : List Bool} (h : seen result = .ok a left) : ∃ u, result = .ok a u ∧ u.bits = left := by
  cases result with
  | ok b u =>
    injection h with ha hleft
    exact ⟨u, by rw [ha], hleft⟩
  | error e u => cases h

/-- A piece is at the front of the bits that are left. -/
theorem bits_piece {left count : Nat} (hcount : count ≤ left) (rest : Bytes) (current : Nat) :
    bits ⟨rest, current, left⟩
      = Packed.bits count (current >>> (left - count)) ++ bits ⟨rest, current, left - count⟩ := by
  rw [bits, bits, bits_sub hcount, List.append_assoc]

/-- A number is what its pieces spell, one behind the other. -/
theorem get_spec (value width : Nat) (u : Unpacker) (hvalue : value < 2 ^ 64) :
    seen (u.get value width)
      = if width ≤ u.bits.length
        then .ok ((value * 2 ^ width + ofBits (u.bits.take width)) % 2 ^ 64) (u.bits.drop width)
        else .error (.corrupt .packedTruncated) [] := by
  fun_induction get value width u with
  | case1 value rest current left =>
    rw [if_pos (Nat.zero_le _), Nat.pow_zero, Nat.mul_one, List.take_zero, List.drop_zero]
    exact congrArg (EStateM.Result.ok · _) (Nat.mod_eq_of_lt hvalue).symm
  | case2 value width current hwidth =>
    have hnone : bits ⟨[], current, 0⟩ = [] := rfl
    rw [hnone, if_neg (by simpa using hwidth)]
    rfl
  | case3 value width current hwidth b rest ih =>
    have hnext : bits ⟨b :: rest, current, 0⟩ = bits ⟨rest, b.toNat, 8⟩ := rfl
    rw [hnext]
    exact ih hvalue
  | case4 value width rest current left hwidth hleft count piece ih =>
    have hcount : count ≤ left := Nat.min_le_left ..
    have hle : count ≤ width := Nat.min_le_right ..
    have hpiece : value <<< count ||| piece = value * 2 ^ count + piece := by
      rw [Nat.shiftLeft_eq, Nat.mul_comm, Nat.two_pow_add_eq_or_of_lt]
      exact Nat.mod_lt _ (Nat.two_pow_pos _)
    have hfront := length_bits count (current >>> (left - count))
    have hspelled := ofBits_bits count (current >>> (left - count))
    refine (ih (Nat.mod_lt _ (Nat.two_pow_pos 64))).trans ?_
    rw [bits_piece hcount]
    -- what is taken is the piece and then the front of what is left behind it
    generalize Packed.bits count (current >>> (left - count)) = front at hfront hspelled
    generalize bits ⟨rest, current, left - count⟩ = more
    rw [List.length_append, hfront]
    by_cases henough : width - count ≤ more.length
    · have htake : (front ++ more).take width = front ++ more.take (width - count) := by
        rw [List.take_append, hfront, List.take_of_length_le (by omega)]
      have hdrop : (front ++ more).drop width = more.drop (width - count) := by
        rw [List.drop_append, hfront, List.drop_of_length_le (by omega), List.nil_append]
      have hlength : (more.take (width - count)).length = width - count := by
        rw [List.length_take]
        omega
      have hpow : 2 ^ width = 2 ^ count * 2 ^ (width - count) := by
        rw [← Nat.pow_add, Nat.add_sub_cancel' hle]
      have hvalues : ((value <<< count ||| piece) % 2 ^ 64 * 2 ^ (width - count)
            + ofBits (more.take (width - count))) % 2 ^ 64
          = (value * 2 ^ width + ofBits (front ++ more.take (width - count))) % 2 ^ 64 := by
        rw [ofBits_append, hlength, hspelled, hpiece, hpow, Nat.add_mod, Nat.mod_mul_mod,
          ← Nat.add_mod]
        congr 1
        ring
      rw [if_pos henough, if_pos (by omega), htake, hdrop, hvalues]
    · rw [if_neg henough, if_neg (by omega)]

/-- **Reading piece by piece is taking bits off the front.** -/
theorem read_eq_take (width : Nat) (u : Unpacker) : seen (read width u) = take width u.bits := by
  have hlength : (u.bits.take width).length = width ↔ width ≤ u.bits.length := by
    rw [List.length_take]
    omega
  rw [read, get_spec 0 width u (Nat.two_pow_pos 64), take]
  simp only [hlength, Nat.zero_mul, Nat.zero_add]

/-- One computation after another is seen as the one after the other on the bits that are left. -/
theorem seen_bind {α β : Type} {f : EStateM Error Unpacker α} {g : EStateM Error (List Bool) α}
    {next : α → EStateM Error Unpacker β} {behind : α → EStateM Error (List Bool) β}
    (hfirst : ∀ u, seen (f u) = g u.bits) (hnext : ∀ a u, seen (next a u) = behind a u.bits)
    (u : Unpacker) : seen ((f >>= next) u) = (g >>= behind) u.bits := by
  have hseen := hfirst u
  cases hresult : f u with
  | error e mid =>
    rw [hresult] at hseen
    rw [bind_error hresult, bind_error hseen.symm]
    rfl
  | ok a mid =>
    rw [hresult] at hseen
    rw [bind_ok hresult, bind_ok hseen.symm]
    exact hnext a mid

/-- Reading numbers one after the other takes their bits one after the other. -/
theorem mapM_read_eq_mapM_take (widths : List Nat) : ∀ u : Unpacker,
    seen (widths.mapM read u) = widths.mapM take u.bits := by
  induction widths with
  | nil => exact fun _ => rfl
  | cons width widths ih =>
    intro u
    rw [List.mapM_cons, List.mapM_cons]
    exact seen_bind (read_eq_take width) (fun _ => seen_bind ih fun _ _ => rfl) u

end Unpacker

/-! ## Rows -/

/-- Numbers are taken off the front of their bits, one after the other. -/
theorem mapM_take_bits (row : List (Nat × Nat))
    (hfits : ∀ p ∈ row, p.2 ≤ 64 ∧ p.1 < 2 ^ p.2) (tail : List Bool) :
    (row.map Prod.snd).mapM take ((row.flatMap fun (n, width) => bits width n) ++ tail)
      = .ok (row.map Prod.fst) tail := by
  induction row with
  | nil => rfl
  | cons entry row ih =>
    obtain ⟨⟨hwidth, hn⟩, hrow⟩ := List.forall_mem_cons.mp hfits
    rw [List.map_cons, List.mapM_cons, List.flatMap_cons, List.append_assoc,
      bind_ok (take_bits hwidth hn _), bind_ok (ih hrow)]
    rfl

/-- A row has as many bits as its widths add up to. -/
theorem length_flatMap_row (row : List (Nat × Nat)) :
    (row.flatMap fun (n, width) => bits width n).length = (row.map Prod.snd).sum := by
  induction row with
  | nil => rfl
  | cons entry row ih =>
    rw [List.flatMap_cons, List.length_append, length_bits, ih, List.map_cons, List.sum_cons]

/-- **Numbers of any widths are packed into the bits of one after the other**, highest first and
filled up with zeros: piece by piece, the packer puts just these bytes behind what there was before.
If the numbers have the widths, the unpacker takes them back from the bytes and any bytes behind
them, and so do bits that are taken off the front. -/
theorem row_read_back (row : List (Nat × Nat)) (before : Bytes) :
    (Packer.puts ⟨before, 0, 8⟩ row).flush = before ++ encode row ∧
    (encode row).length = ((row.map Prod.snd).sum + 7) / 8 ∧
    unpack (encode row) = (row.flatMap fun (n, width) => bits width n)
      ++ List.replicate (8 * (encode row).length - (row.map Prod.snd).sum) false ∧
    ((∀ p ∈ row, p.2 ≤ 64 ∧ p.1 < 2 ^ p.2) → ∀ rest : Bytes,
      (row.map Prod.snd).mapM take (unpack (encode row ++ rest))
        = .ok (row.map Prod.fst)
          (List.replicate (8 * (encode row).length - (row.map Prod.snd).sum) false ++ unpack rest) ∧
      ∃ u, (row.map Prod.snd).mapM Unpacker.read ⟨encode row ++ rest, 0, 0⟩
          = .ok (row.map Prod.fst) u ∧
        u.bits = List.replicate (8 * (encode row).length - (row.map Prod.snd).sum) false
          ++ unpack rest) := by
  have hlength : (encode row).length = ((row.map Prod.snd).sum + 7) / 8 := by
    rw [encode, length_pack, length_flatMap_row]
  have hbits : unpack (encode row) = (row.flatMap fun (n, width) => bits width n)
      ++ List.replicate (8 * (encode row).length - (row.map Prod.snd).sum) false := by
    rw [hlength, encode, unpack_pack, length_flatMap_row, Nat.mul_comm 8]
  refine ⟨?_, hlength, hbits, fun hfits rest => ?_⟩
  · exact Packer.flush_spec (Packer.puts_spec row (Packer.holds_start before))
  · have htakes := mapM_take_bits row hfits
      (List.replicate (8 * (encode row).length - (row.map Prod.snd).sum) false ++ unpack rest)
    rw [← List.append_assoc, ← hbits, ← unpack_append] at htakes
    refine ⟨htakes, ?_⟩
    have hreads := Unpacker.mapM_read_eq_mapM_take (row.map Prod.snd) ⟨encode row ++ rest, 0, 0⟩
    rw [show Unpacker.bits ⟨encode row ++ rest, 0, 0⟩ = unpack (encode row ++ rest) from rfl,
      htakes] at hreads
    exact Unpacker.of_seen_eq_ok hreads

/-- Widths from nothing to a full word, which lies across nine bytes. -/
def assorted : List (Nat × Nat) := [(5, 3), (0, 0), (0, 1), (1023, 10), (2 ^ 64 - 1, 64), (42, 6)]

/-- Numbers of several widths, among them none and 64. -/
theorem row_read_back_assorted :
    (∀ p ∈ assorted, p.2 ≤ 64 ∧ p.1 < 2 ^ p.2) ∧
      (Packer.puts ⟨[7], 0, 8⟩ assorted).flush
        = [7, 175, 255, 255, 255, 255, 255, 255, 255, 255, 254, 160] ∧
      ∃ u, [3, 0, 1, 10, 64, 6].mapM Unpacker.read ⟨encode assorted ++ [255], 0, 0⟩
        = .ok [5, 0, 0, 1023, 2 ^ 64 - 1, 42] u ∧ u.bits.length = 12 := by
  have hfits : ∀ p ∈ assorted, p.2 ≤ 64 ∧ p.1 < 2 ^ p.2 := by decide
  have hbytes : encode assorted = [175, 255, 255, 255, 255, 255, 255, 255, 255, 254, 160] := by
    decide +kernel
  obtain ⟨hflush, -, -, hread⟩ := row_read_back assorted [7]
  obtain ⟨-, u, hreads, hleft⟩ := hread hfits [255]
  refine ⟨hfits, by rw [hflush, hbytes]; rfl, u, hreads, ?_⟩
  rw [hleft, hbytes]
  rfl

end Lexicon.Packed

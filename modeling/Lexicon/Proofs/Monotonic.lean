import Lexicon.Monotonic
import Lexicon.Proofs.Bits
import Lexicon.Proofs.Number
import Lexicon.Proofs.Term.Longs

/-!
# Monotonic rows are read back

A value is restored by two additions that must each stay within signed 64 bits. For a row of 63-bit
numbers that grows they do: the line of a block grows as well, so two differences from it are never
further apart than the values or the points of the line are (`sub_lt_of_mem`).

> **`takes_read`** — a row is read back from the bytes of its builder.
-/

namespace Lexicon.Monotonic

open Read

/-- A difference of 64 bits is kept as it is. -/
theorem signed_of_bounds {i : Int} (hlow : -2 ^ 63 ≤ i) (hhigh : i < 2 ^ 63) : signed i = i := by
  rw [signed, Int.bmod_def]
  omega

/-- A difference that is not negative is kept as it is. -/
theorem unsigned_of_bounds {i : Int} (hlow : 0 ≤ i) (hhigh : i < 2 ^ 64) :
    unsigned i = i.toNat := by
  rw [unsigned, Int.emod_eq_of_lt hlow hhigh]

/-! ## The least of a row -/

/-- The least so far is not above anything that was met. -/
theorem foldl_min_le (rest : List Int) :
    ∀ i, rest.foldl min i ≤ i ∧ ∀ j ∈ rest, rest.foldl min i ≤ j := by
  induction rest with
  | nil => simp
  | cons k rest ih =>
    intro i
    obtain ⟨hfirst, hrest⟩ := ih (min i k)
    rw [List.foldl_cons]
    refine ⟨by omega, fun j hj => ?_⟩
    rcases List.mem_cons.mp hj with rfl | hj
    · omega
    · exact hrest j hj

/-- The least so far was met. -/
theorem foldl_min_mem (rest : List Int) : ∀ i, rest.foldl min i ∈ i :: rest := by
  induction rest with
  | nil => simp
  | cons k rest ih =>
    intro i
    rw [List.foldl_cons]
    have hmem := ih (min i k)
    have hmin : min i k = i ∨ min i k = k := by omega
    rcases List.mem_cons.mp hmem with heq | hmem
    · rw [heq]
      rcases hmin with h | h
      · rw [h]
        exact List.mem_cons_self ..
      · rw [h]
        simp
    · exact List.mem_cons_of_mem _ (List.mem_cons_of_mem _ hmem)

/-- The least of a row is not above any of it. -/
theorem least_le {l : List Int} {i : Int} (h : i ∈ l) : least l ≤ i := by
  cases l with
  | nil => simp at h
  | cons j rest =>
    rcases List.mem_cons.mp h with rfl | h
    · exact (foldl_min_le rest i).1
    · exact (foldl_min_le rest j).2 i h

/-- The least of a row is one of it. -/
theorem least_mem {l : List Int} (h : l ≠ []) : least l ∈ l := by
  cases l with
  | nil => exact absurd rfl h
  | cons j rest => exact foldl_min_mem rest j

/-! ## Differences from a line that grows -/

variable {slope : UInt32}

/-- A difference is that of a value and what was expected at its place. -/
theorem mem_differences (hslope : slope.toNat < 2 ^ 31) (values : List Nat) :
    ∀ index, (∀ v ∈ values, v < 2 ^ 63) → ∀ d ∈ differences slope index values,
      ∃ i v : Nat, values[i]? = some v ∧ d = v - expected slope (index + i) := by
  induction values with
  | nil => simp [differences]
  | cons v values ih =>
    intro index hsmall d hd
    rw [differences] at hd
    rcases List.mem_cons.mp hd with heq | hd
    · have hv := hsmall v (List.mem_cons_self ..)
      obtain ⟨hlow, hhigh⟩ := Binary32.timesIndex_bounds hslope index
      rw [← expected] at hlow hhigh
      refine ⟨0, v, rfl, ?_⟩
      rw [heq, signed_of_bounds (i := (v : Int)) (by omega) (by omega), Nat.add_zero,
        signed_of_bounds (by omega) (by omega)]
    · obtain ⟨i, v', hv', rfl⟩ := ih (index + 1) (fun x hx => hsmall x (by simp [hx])) d hd
      exact ⟨i + 1, v', hv', by rw [show index + 1 + i = index + (i + 1) by omega]⟩

/-- **Two differences of a row that grows are less than 2^63 apart.** -/
theorem sub_lt_of_mem (hslope : slope.toNat < 2 ^ 31) {values : List Nat}
    (hsorted : values.Pairwise (· ≤ ·)) (hsmall : ∀ v ∈ values, v < 2 ^ 63) {d d' : Int}
    (hd : d ∈ differences slope 0 values) (hd' : d' ∈ differences slope 0 values) :
    d' - d < 2 ^ 63 := by
  obtain ⟨i, v, hv, rfl⟩ := mem_differences hslope values 0 hsmall d hd
  obtain ⟨j, v', hv', rfl⟩ := mem_differences hslope values 0 hsmall d' hd'
  obtain ⟨hi, rfl⟩ := List.getElem?_eq_some_iff.mp hv
  obtain ⟨hj, rfl⟩ := List.getElem?_eq_some_iff.mp hv'
  have hlt := hsmall _ (List.getElem_mem hi)
  have hlt' := hsmall _ (List.getElem_mem hj)
  have hbounds := Binary32.timesIndex_bounds hslope
  have hline := hbounds (0 + i)
  have hline' := hbounds (0 + j)
  simp only [expected]
  -- of two values the later is not smaller, and neither is the later point of the line
  rcases Nat.lt_trichotomy i j with hij | rfl | hij
  · have hvalues := List.pairwise_iff_getElem.mp hsorted i j hi hj hij
    have hmono := Binary32.timesIndex_mono hslope (show 0 + i ≤ 0 + j by omega)
    omega
  · omega
  · have hvalues := List.pairwise_iff_getElem.mp hsorted j i hj hi hij
    have hmono := Binary32.timesIndex_mono hslope (show 0 + j ≤ 0 + i by omega)
    omega

/-- Differences of values below 2^63 are within 64 bits. -/
theorem bounds_of_mem (hslope : slope.toNat < 2 ^ 31) {values : List Nat} {index : Nat}
    (hsmall : ∀ v ∈ values, v < 2 ^ 63) {d : Int} (hd : d ∈ differences slope index values) :
    -2 ^ 63 < d ∧ d < 2 ^ 63 := by
  obtain ⟨i, v, hv, rfl⟩ := mem_differences hslope values index hsmall d hd
  have hlt := hsmall v (List.mem_of_getElem? hv)
  have hline := Binary32.timesIndex_bounds hslope (index + i)
  simp only [expected]
  omega

/-- What is stored of a difference gives the value back. -/
theorem restore_eq (hslope : slope.toNat < 2 ^ 31) {v index : Nat} {min : Int} (hv : v < 2 ^ 63)
    (hmin : min ≤ v - expected slope index) (hnear : v - expected slope index - min < 2 ^ 63) :
    restore min (signed (unsigned (v - expected slope index - min))) slope index = .ok v := by
  obtain ⟨hlow, hhigh⟩ := Binary32.timesIndex_bounds hslope index
  rw [← expected] at hlow hhigh
  rw [unsigned_of_bounds (by omega) (by omega), Int.toNat_of_nonneg (by omega),
    signed_of_bounds (by omega) (by omega), restore]
  have hfirst : checkedAdd min (v - expected slope index - min)
      = some (v - expected slope index) := by
    rw [checkedAdd, if_pos (by omega)]
    congr 1
    omega
  have hsecond : checkedAdd (v - expected slope index) (expected slope index) = some (v : Int) := by
    rw [checkedAdd, if_pos (by omega)]
    congr 1
    omega
  rw [hfirst, Option.bind_some, hsecond]
  show Except.ok (unsigned v) = _
  rw [unsigned_of_bounds (by omega) (by omega), Int.toNat_natCast]

/-- Values are restored from their differences above a number that is below all of them. -/
theorem restoreAll_eq (hslope : slope.toNat < 2 ^ 31) {min : Int} (values : List Nat) :
    ∀ index, (∀ v ∈ values, v < 2 ^ 63) →
      (∀ d ∈ differences slope index values, min ≤ d ∧ d - min < 2 ^ 63) →
      restoreAll min slope index ((differences slope index values).map fun d => unsigned (d - min))
        = .ok values := by
  induction values with
  | nil => intro index _ _; rfl
  | cons v values ih =>
    intro index hsmall hnear
    have hv := hsmall v (List.mem_cons_self ..)
    obtain ⟨hlow, hhigh⟩ := Binary32.timesIndex_bounds hslope index
    rw [← expected] at hlow hhigh
    have hfirst : signed (signed v - expected slope index) = v - expected slope index := by
      rw [signed_of_bounds (i := (v : Int)) (by omega) (by omega),
        signed_of_bounds (by omega) (by omega)]
    rw [differences, hfirst] at hnear ⊢
    obtain ⟨hmin, hlt⟩ := hnear _ (List.mem_cons_self ..)
    have hrest := ih (index + 1) (fun x hx => hsmall x (List.mem_cons_of_mem _ hx))
      fun d hd => hnear d (List.mem_cons_of_mem _ hd)
    rw [List.map_cons, restoreAll, restore_eq hslope hv hmin hlt]
    show (restoreAll min slope (index + 1) _).bind (fun rest => .ok (v :: rest)) = _
    rw [hrest]
    rfl

/-! ## A block -/

/-- Joining numbers by their bits loses none of them. -/
theorem le_foldl_or (rest : List Nat) :
    ∀ n, n ≤ rest.foldl (· ||| ·) n ∧ ∀ m ∈ rest, m ≤ rest.foldl (· ||| ·) n := by
  induction rest with
  | nil => simp
  | cons k rest ih =>
    intro n
    obtain ⟨hfirst, hrest⟩ := ih (n ||| k)
    rw [List.foldl_cons]
    refine ⟨Nat.le_trans Nat.left_le_or hfirst, fun m hm => ?_⟩
    rcases List.mem_cons.mp hm with rfl | hm
    · exact Nat.le_trans Nat.right_le_or hfirst
    · exact hrest m hm

/-- Numbers of a width have a joint width no greater. -/
theorem foldl_or_lt {width : Nat} (rest : List Nat) :
    ∀ n < 2 ^ width, (∀ m ∈ rest, m < 2 ^ width) → rest.foldl (· ||| ·) n < 2 ^ width := by
  induction rest with
  | nil => intro n hn _; exact hn
  | cons k rest ih =>
    intro n hn hrest
    rw [List.foldl_cons]
    refine ih _ (Nat.or_lt_two_pow hn (hrest k (List.mem_cons_self ..))) fun m hm => ?_
    exact hrest m (List.mem_cons_of_mem _ hm)

/-- Numbers that were packed with a width are taken with it. -/
theorem takeAll_bits {width : Nat} (hwidth : width ≤ 64) (row : List Nat)
    (hrow : ∀ n ∈ row, n < 2 ^ width) (rest : List Bool) :
    takeAll width row.length (row.flatMap (Packed.bits width) ++ rest) = .ok row rest := by
  induction row with
  | nil => rfl
  | cons n row ih =>
    have hn := hrow n (List.mem_cons_self ..)
    have hrest := ih fun m hm => hrow m (List.mem_cons_of_mem _ hm)
    rw [List.flatMap_cons, List.append_assoc, List.length_cons, takeAll,
      bind_ok (Packed.take_bits hwidth hn _), bind_ok hrest]
    rfl

/-- The slope of a block is not negative. -/
theorem blockSlope_lt {values : List Nat} (hsmall : ∀ v ∈ values, v < 2 ^ 63) :
    (blockSlope values).toNat < 2 ^ 31 := by
  refine Binary32.slope_lt ?_ (by omega)
  refine Nat.lt_of_le_of_lt (Nat.sub_le ..) ?_
  cases hlast : values.getLast? with
  | none => decide
  | some v => exact hsmall v (List.mem_of_getLast? hlast)

/-- What a block stores of its differences: how far they are above the least. -/
def above (values : List Nat) : List Nat :=
  (differences (blockSlope values) 0 values).map fun d =>
    unsigned (d - least (differences (blockSlope values) 0 values))

/-- There is a difference for each value. -/
theorem length_differences (slope : UInt32) (values : List Nat) :
    ∀ index, (differences slope index values).length = values.length := by
  induction values with
  | nil => intro index; rfl
  | cons v values ih => intro index; rw [differences, List.length_cons, ih, List.length_cons]

/-- There is a packed number for each value. -/
theorem length_above (values : List Nat) : (above values).length = values.length := by
  rw [above, List.length_map, length_differences]

variable {values : List Nat}

/-- The differences of a block are at most 2^63 above the least of them. -/
theorem above_near (hsorted : values.Pairwise (· ≤ ·)) (hsmall : ∀ v ∈ values, v < 2 ^ 63) :
    ∀ d ∈ differences (blockSlope values) 0 values,
      least (differences (blockSlope values) 0 values) ≤ d ∧
        d - least (differences (blockSlope values) 0 values) < 2 ^ 63 := by
  intro d hd
  refine ⟨least_le hd, ?_⟩
  exact sub_lt_of_mem (blockSlope_lt hsmall) hsorted hsmall
    (least_mem (List.ne_nil_of_mem hd)) hd

/-- The values of a block are restored from what is packed of them. -/
theorem restoreAll_above (hsorted : values.Pairwise (· ≤ ·)) (hsmall : ∀ v ∈ values, v < 2 ^ 63) :
    restoreAll (least (differences (blockSlope values) 0 values)) (blockSlope values) 0
      (above values) = .ok values :=
  restoreAll_eq (blockSlope_lt hsmall) values 0 hsmall (above_near hsorted hsmall)

/-- Where no bit is set, all values are on the line. -/
theorem above_eq_replicate (hzero : (above values).foldl (· ||| ·) 0 = 0) :
    above values = List.replicate values.length 0 := by
  refine List.eq_replicate_iff.mpr ⟨length_above values, fun n hn => ?_⟩
  have := (le_foldl_or (above values) 0).2 n hn
  omega

/-- What is packed has 64 bits. -/
theorem foldl_above_lt (values : List Nat) : (above values).foldl (· ||| ·) 0 < 2 ^ 64 := by
  refine foldl_or_lt _ 0 (Nat.two_pow_pos 64) fun n hn => ?_
  obtain ⟨d, -, rfl⟩ := List.mem_map.mp hn
  rw [unsigned]
  omega

/-- The width of a block: that of all its bits together. -/
def blockWidth (values : List Nat) : Nat :=
  Packed.bitsRequired ((above values).foldl (· ||| ·) 0)

theorem blockWidth_le (values : List Nat) : blockWidth values ≤ 64 :=
  Packed.bitsRequired_le (by decide) (foldl_above_lt values)

theorem blockWidth_ne_zero (values : List Nat) : blockWidth values ≠ 0 := by
  rw [blockWidth, Packed.bitsRequired]
  split <;> omega

/-- What is packed has the width of the block. -/
theorem lt_two_pow_blockWidth {n : Nat} (hn : n ∈ above values) : n < 2 ^ blockWidth values :=
  Nat.lt_of_le_of_lt ((le_foldl_or (above values) 0).2 n hn) (Packed.lt_two_pow_bitsRequired _)

/-- The packed differences of a block, and how many bytes they take. -/
theorem takes_packed_above (values : List Nat) :
    Takes (bytes (Packed.length values.length (blockWidth values)))
      (Packed.pack ((above values).flatMap (Packed.bits (blockWidth values))))
      (Packed.pack ((above values).flatMap (Packed.bits (blockWidth values)))) := by
  have hbytes :=
    takes_bytes (Packed.pack ((above values).flatMap (Packed.bits (blockWidth values))))
  rwa [Packed.length_pack, Packed.length_flatMap_bits, length_above, ← Packed.length] at hbytes

/-- **A block is read back.** -/
theorem takes_readBlock (hne : values ≠ []) (hsorted : values.Pairwise (· ≤ ·))
    (hsmall : ∀ v ∈ values, v < 2 ^ 63) :
    Takes (readBlock values.length) (encodeBlock values) values := by
  have hslope := blockSlope_lt hsmall
  have hleast : -2 ^ 63 < least (differences (blockSlope values) 0 values) ∧
      least (differences (blockSlope values) 0 values) < 2 ^ 63 := by
    refine bounds_of_mem hslope hsmall (least_mem fun hnil => hne ?_)
    have hlength := length_differences (blockSlope values) values 0
    rw [hnil] at hlength
    exact List.length_eq_zero_iff.mp hlength.symm
  have hmin := takes_nat64 (Zigzag.encode_lt (by omega) hleast.2)
  have hword : Takes (word 4) (Item.u32 (blockSlope values)).encode (blockSlope values).toNat :=
    takes_word (Nat.lt_of_lt_of_le (blockSlope values).toNat_lt (by decide))
  have hrestore := restoreAll_above hsorted hsmall
  rw [encodeBlock, ← above]
  simp only
  split
  next hzero =>
    -- all values are on the line, and nothing is packed
    rw [above_eq_replicate hzero] at hrestore
    simp only [List.cons_append, List.nil_append, Item.encodeAll_cons, Item.encodeAll_nil,
      List.append_nil]
    rw [readBlock]
    refine hmin.bind (hword.bind ((takes_byte 0).bind_last ?_))
    rw [Zigzag.decode_encode, UInt32.ofNat_toNat]
    show Takes (if 64 < 0 then _ else _) [] values
    rw [if_neg (by decide)]
    show Takes (if 0 = 0 then _ else _) [] values
    rw [if_pos rfl]
    simp only [pure_bind, hrestore]
    exact takes_pure values
  next hpositive =>
    have hle := blockWidth_le values
    have hbyte : (UInt8.ofNat (blockWidth values)).toNat = blockWidth values :=
      UInt8.toNat_ofNat_of_lt' (Nat.lt_of_le_of_lt hle (by decide))
    have hbits : ((above values).map (·, blockWidth values)).flatMap
        (fun p => Packed.bits p.2 p.1)
          = (above values).flatMap (Packed.bits (blockWidth values)) := by
      rw [List.flatMap_map]
    rw [← blockWidth]
    simp only [List.cons_append, List.nil_append, Item.encodeAll_cons, Item.encodeAll_nil,
      List.append_nil, List.append_assoc]
    rw [readBlock]
    refine hmin.bind (hword.bind ((takes_byte _).bind ?_))
    rw [Zigzag.decode_encode, UInt32.ofNat_toNat, hbyte, if_neg (by omega)]
    show Takes (if blockWidth values = 0 then _ else _) _ values
    rw [if_neg (blockWidth_ne_zero values)]
    show Takes _ (Packed.pack _) values
    rw [hbits]
    refine (takes_packed_above values).bind_last ?_
    rw [Packed.unpack_pack, ← length_above values,
      takeAll_bits hle _ fun n hn => lt_two_pow_blockWidth hn]
    simp only [pure_bind, hrestore]
    exact takes_pure values

/-- A block takes at most 15 bytes, and eight a value. -/
theorem length_encodeBlock_le (values : List Nat) :
    (encodeBlock values).length ≤ 15 + 8 * values.length := by
  have hmin := Item.length_encode_vlong
    (UInt64.ofNat (Zigzag.encode (least (differences (blockSlope values) 0 values))))
  have hword : (Item.u32 (blockSlope values)).encode.length = 4 := Bytes.length_littleEndian ..
  rw [encodeBlock, ← above]
  simp only
  split
  · simp only [List.cons_append, List.nil_append, Item.encodeAll_cons, Item.encodeAll_nil,
      List.length_append, hword, Item.nat64]
    show _ + (4 + (1 + 0)) ≤ _
    omega
  · have hbits : (((above values).map (·, blockWidth values)).flatMap
        fun p => Packed.bits p.2 p.1).length ≤ values.length * 64 := by
      rw [List.flatMap_map, Packed.length_flatMap_bits, length_above]
      exact Nat.mul_le_mul_left _ (blockWidth_le values)
    rw [← blockWidth]
    simp only [List.cons_append, List.nil_append, Item.encodeAll_cons, Item.encodeAll_nil,
      List.length_append, hword, Item.nat64, Packed.encode, Packed.length_pack]
    show _ + (4 + (1 + 0)) + _ ≤ _
    omega

/-! ## A row -/

/-- The bytes of a row in blocks of `size + 1` values. -/
def encodeRow (size : Nat) (values : List Nat) : Bytes :=
  if values = [] then []
  else encodeBlock (values.take (size + 1)) ++ encodeRow size (values.drop (size + 1))
termination_by values.length
decreasing_by
  next h =>
    have := List.length_pos_iff.mpr h
    rw [List.length_drop]
    omega

theorem encodeRow_nil (size : Nat) : encodeRow size [] = [] := by
  rw [encodeRow, if_pos rfl]

/-- A row starts with its first full block. -/
theorem encodeRow_append {size : Nat} {block values : List Nat} (h : block.length = size + 1) :
    encodeRow size (block ++ values) = encodeBlock block ++ encodeRow size values := by
  have hne : block ++ values ≠ [] := by
    intro hnil
    rw [(List.append_eq_nil_iff.mp hnil).1] at h
    exact absurd h (by simp)
  rw [encodeRow, if_neg hne, ← h, List.take_left, List.drop_left]

/-- A row that fits a block is that block. -/
theorem encodeRow_of_le {size : Nat} {block : List Nat} (hne : block ≠ [])
    (h : block.length ≤ size + 1) : encodeRow size block = encodeBlock block := by
  rw [encodeRow, if_neg hne, List.take_of_length_le h, List.drop_eq_nil_of_le h, encodeRow_nil,
    List.append_nil]

/-- A row takes at most 23 bytes a value. -/
theorem length_encodeRow_le (size : Nat) (values : List Nat) :
    (encodeRow size values).length ≤ 23 * values.length := by
  induction hn : values.length using Nat.strongRecOn generalizing values with
  | ind n ih =>
    subst hn
    rw [encodeRow]
    split
    next hnil => simp
    next hne =>
      have hpos := List.length_pos_iff.mpr hne
      have hblock := length_encodeBlock_le (values.take (size + 1))
      have hrest := ih _ (by rw [List.length_drop]; omega) (values.drop (size + 1)) rfl
      rw [List.length_take] at hblock
      rw [List.length_drop] at hrest
      rw [List.length_append]
      omega

/-- A row is read back block by block. -/
theorem takes_readBlocks (size : Nat) (values : List Nat) (hsorted : values.Pairwise (· ≤ ·))
    (hsmall : ∀ v ∈ values, v < 2 ^ 63) :
    Takes (readBlocks size values.length) (encodeRow size values) values := by
  induction hn : values.length using Nat.strongRecOn generalizing values with
  | ind n ih =>
    subst hn
    rw [readBlocks, encodeRow]
    by_cases hne : values = []
    · rw [dif_pos (by rw [hne]; rfl), if_pos hne, hne]
      exact takes_pure []
    · have hpos := List.length_pos_iff.mpr hne
      rw [dif_neg (by omega), if_neg hne]
      -- the reader knows the number of values, from which it has the lengths of the two parts
      have hlength : min (size + 1) values.length = (values.take (size + 1)).length :=
        List.length_take.symm
      have hrest : values.length - min (size + 1) values.length
          = (values.drop (size + 1)).length := by
        rw [List.length_drop]
        omega
      simp only [hrest]
      rw [hlength]
      have hfirst : Takes (readBlock (values.take (size + 1)).length)
          (encodeBlock (values.take (size + 1))) (values.take (size + 1)) :=
        takes_readBlock (by simpa using hne) (hsorted.sublist (List.take_sublist ..))
          fun v hv => hsmall v (List.mem_of_mem_take hv)
      refine hfirst.bind ?_
      have hshorter : (values.drop (size + 1)).length < values.length := by
        rw [List.length_drop]
        omega
      have hothers := ih _ hshorter (values.drop (size + 1))
        (hsorted.sublist (List.drop_sublist ..))
        (fun v hv => hsmall v (List.mem_of_mem_drop hv)) rfl
      have := hothers.bind_pure (f := fun others => values.take (size + 1) ++ others)
      rwa [List.take_append_drop] at this

/-- **A row is read back.** -/
theorem takes_read {shift : Nat} (hshift : validShift shift = true) {values : List Nat}
    (hsorted : values.Pairwise (· ≤ ·)) (hsmall : ∀ v ∈ values, v < 2 ^ 63) :
    Takes (read values.length shift) (encodeRow (2 ^ shift - 1) values) values := by
  rw [read, if_pos hshift]
  exact takes_readBlocks _ values hsorted hsmall

namespace Builder

/-- A builder takes a row that grows, and its bytes are those of the row in blocks. -/
theorem foldlM_add (values : List Nat) :
    ∀ b : Builder, b.block.length ≤ 2 ^ b.shift →
      ((∀ p, b.previous = some p → ∀ v ∈ values, p ≤ v) ∧ values.Pairwise (· ≤ ·)) →
      ∃ b', values.foldlM (fun b v => b.add v) b = .ok b' ∧
        b'.finish = b.done ++ encodeRow (2 ^ b.shift - 1) (b.block.reverse ++ values) := by
  induction values with
  | nil =>
    intro b hfull _
    refine ⟨b, rfl, ?_⟩
    have hpos := Nat.two_pow_pos b.shift
    rw [finish, List.append_nil]
    split
    next hempty =>
      rw [List.isEmpty_iff.mp hempty, List.reverse_nil, encodeRow_nil, List.append_nil]
    next hblock =>
      rw [encodeRow_of_le (by simpa using hblock) (by rw [List.length_reverse]; omega), endBlock]
  | cons v values ih =>
    rintro b hfull ⟨hprevious, hsorted⟩
    obtain ⟨hfirst, hsorted⟩ := List.pairwise_cons.mp hsorted
    have hpos := Nat.two_pow_pos b.shift
    have hnone : b.previous.filter (v < ·) = none := by
      cases hp : b.previous with
      | none => rfl
      | some p =>
        have := hprevious p hp v (List.mem_cons_self ..)
        rw [Option.filter_some, if_neg (by simpa using this)]
    have hstep : ∀ p, some v = some p → ∀ x ∈ values, p ≤ x := by
      rintro p hp x hx
      obtain rfl := Option.some.inj hp
      exact hfirst x hx
    rw [List.foldlM_cons, add, hnone]
    by_cases hlength : b.block.length = 2 ^ b.shift
    · -- The block is full: it is written, and the value begins the next one.
      obtain ⟨b', hfold, hfinish⟩ := ih
        { b.endBlock with block := [v], previous := some v, count := b.count + 1 }
        hpos ⟨hstep, hsorted⟩
      refine ⟨b', ?_, ?_⟩
      · simp only [if_pos hlength]
        exact hfold
      · have hblock : b.block.reverse.length = 2 ^ b.shift - 1 + 1 := by
          rw [List.length_reverse]
          omega
        rw [hfinish, encodeRow_append hblock, ← List.append_assoc]
        rfl
    · -- The value joins the block, which holds its values last first.
      obtain ⟨b', hfold, hfinish⟩ := ih
        { b with block := v :: b.block, previous := some v, count := b.count + 1 }
        (by simp only [List.length_cons]; omega) ⟨hstep, hsorted⟩
      refine ⟨b', ?_, ?_⟩
      · simp only [if_neg hlength]
        exact hfold
      · rw [hfinish]
        simp

end Builder

end Lexicon.Monotonic

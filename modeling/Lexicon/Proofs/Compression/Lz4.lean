import Lexicon.Lz4

/-!
# LZ4 blocks are restored

`Lz4.decompress_compress`: what the compressor writes is read back as the input. How it looks for
copies does not matter for that. What matters is what a search that succeeds has found:

> `search_spec`: two positions, the earlier one below the later one by no more than two bytes can
> tell, with the same four bytes after them.

Both ways in which a copy is then lengthened compare bytes, so every byte of the copy is the one
that stands `offset` places before it, and `copyBack_extract` lets the reader append them one at a
time. The reader is always at the end of a prefix of the input (`sequences_blocks`).
-/

namespace Lexicon.Lz4

/-! ## Counts -/

/-- A count that goes on is read to its end. -/
theorem extended_extension (extra : Nat) (rest : Bytes) :
    ∀ base : Nat, extended base (extension extra ++ rest) = some (base + extra, rest) := by
  induction extra using Nat.strongRecOn with
  | ind extra ih =>
    intro base
    rcases Nat.lt_or_ge extra 255 with hlt | hge
    · have hne : UInt8.ofNat extra ≠ 255 := by
        intro h
        have := congrArg UInt8.toNat h
        rw [UInt8.toNat_ofNat'] at this
        simp at this
        omega
      rw [extension, Nat.div_eq_of_lt hlt, Nat.mod_eq_of_lt hlt, List.replicate_zero,
        List.nil_append, List.cons_append, List.nil_append, extended, if_neg hne,
        UInt8.toNat_ofNat', Nat.mod_eq_of_lt (by omega)]
    · obtain ⟨less, rfl⟩ : ∃ less, extra = less + 255 := ⟨extra - 255, by omega⟩
      have hdiv : (less + 255) / 255 = less / 255 + 1 := by omega
      have hmod : (less + 255) % 255 = less % 255 := by omega
      have hsplit : extension (less + 255) = 255 :: extension less := by
        unfold extension
        rw [hdiv, hmod, List.replicate_succ, List.cons_append]
      rw [hsplit, List.cons_append, extended, if_pos rfl, ih less (by omega), Nat.add_assoc,
        Nat.add_comm 255 less]

theorem nibble_lt (n : Nat) : nibble n < 16 := by
  unfold nibble
  omega

/-- A count is read from its nibble and what goes beyond. -/
theorem count_overflow (n : Nat) (rest : Bytes) :
    count (nibble n) (overflow n ++ rest) = some (n, rest) := by
  unfold nibble overflow
  rcases Nat.lt_or_ge n 15 with hlt | hge
  · rw [if_pos hlt, Nat.min_eq_left (by omega), count, if_neg (by omega), List.nil_append]
  · rw [if_neg (by omega), Nat.min_eq_right hge, count, if_pos rfl, extended_extension]
    congr 2
    omega

/-! ## What a copy consists of -/

/-- The bytes from `start` on, of which there are `n`, repeat those `offset` places before. -/
def Repeats (input : Array UInt8) (offset start n : Nat) : Prop :=
  ∀ i < n, input.getD (start + i) 0 = input.getD (start + i - offset) 0

/-- Copying bytes that repeat goes on from one prefix of the input to a longer one. -/
theorem copyBack_extract {input : Array UInt8} {offset : Nat} (hpos : 0 < offset) :
    ∀ (n start : Nat), offset ≤ start → start + n ≤ input.size → Repeats input offset start n →
      copyBack (input.extract 0 start) offset n = input.extract 0 (start + n) := by
  intro n
  induction n with
  | zero => intro start _ _ _; rfl
  | succ n ih =>
    intro start hle hsize hrep
    have hsz : (input.extract 0 start).size = start := by
      rw [Array.size_extract]
      omega
    -- the byte that is copied is in the output already, also where the copy overlaps itself
    have hbyte : (input.extract 0 start).getD (start - offset) 0 = input.getD start 0 := by
      have h0 := hrep 0 (by omega)
      rw [Nat.add_zero] at h0
      rw [h0, Array.getD_eq_getD_getElem?, Array.getD_eq_getD_getElem?, Array.getElem?_extract,
        if_pos (by omega), Nat.zero_add]
    have hpush :
        (input.extract 0 start).push (input.getD start 0) = input.extract 0 (start + 1) := by
      rw [Array.extract_succ_right (by omega) (by omega)]
      congr 1
      rw [Array.getD_eq_getD_getElem?, Array.getElem?_eq_getElem (by omega)]
      rfl
    rw [copyBack, hsz, hbyte, hpush, ih (start + 1) (by omega) (by omega) ?_]
    · congr 1
      omega
    · intro i hi
      have := hrep (i + 1) (by omega)
      rwa [show start + (i + 1) = start + 1 + i by omega] at this

/-! ## Reading one sequence -/

section Sequence

variable {capacity : Nat} {out : Array UInt8}

/-- The upper half of a token counts the literals. -/
theorem token_div (literals extra : Nat) :
    (UInt8.ofNat (nibble literals * 16 + nibble extra)).toNat / 16 = nibble literals := by
  have h₁ := nibble_lt literals
  have h₂ := nibble_lt extra
  rw [UInt8.toNat_ofNat']
  omega

/-- The lower half of a token counts the copy. -/
theorem token_mod (literals extra : Nat) :
    (UInt8.ofNat (nibble literals * 16 + nibble extra)).toNat % 16 = nibble extra := by
  have h₁ := nibble_lt literals
  have h₂ := nibble_lt extra
  rw [UInt8.toNat_ofNat']
  omega

/-- The literals that end a block. -/
theorem sequence_lastLiterals {literals : Array UInt8}
    (hroom : out.size + literals.size ≤ capacity) :
    sequence capacity out (UInt8.ofNat (nibble literals.size * 16))
      (overflow literals.size ++ literals.toList) = .ok (out ++ literals, none) := by
  have htoken := token_div literals.size 0
  have hzero : nibble 0 = 0 := rfl
  rw [hzero, Nat.add_zero] at htoken
  have htake : literals.toList.take literals.size = literals.toList :=
    List.take_of_length_le (by simp)
  have hdrop : literals.toList.drop literals.size = [] := List.drop_eq_nil_of_le (by simp)
  unfold sequence
  rw [htoken, count_overflow]
  simp only [Option.elim_some, bind, Except.bind, htake, hdrop]
  rw [if_neg (by simp), if_neg (by omega)]
  rfl

/-- Literals and a copy. -/
theorem sequence_copySequence {literals : Array UInt8} {offset extra : Nat} (rest : Bytes)
    (hpos : 0 < offset) (hle : offset ≤ maxDistance) (hback : offset ≤ out.size + literals.size)
    (hroom : out.size + literals.size + (extra + 4) ≤ capacity) :
    sequence capacity out (UInt8.ofNat (nibble literals.size * 16 + nibble extra))
      (overflow literals.size ++ (literals.toList ++
        ([UInt8.ofNat offset, UInt8.ofNat (offset / 256)] ++ (overflow extra ++ rest))))
      = .ok (copyBack (out ++ literals) offset (extra + 4), some rest) := by
  have hmax : offset ≤ 65535 := hle
  have htake : (literals.toList ++ ([UInt8.ofNat offset, UInt8.ofNat (offset / 256)] ++
      (overflow extra ++ rest))).take literals.size = literals.toList := by
    rw [List.take_append_of_le_length (by simp), List.take_of_length_le (by simp)]
  have hdrop : (literals.toList ++ ([UInt8.ofNat offset, UInt8.ofNat (offset / 256)] ++
      (overflow extra ++ rest))).drop literals.size
      = UInt8.ofNat offset :: UInt8.ofNat (offset / 256) :: (overflow extra ++ rest) := by
    rw [List.drop_append_of_le_length (by simp), List.drop_eq_nil_of_le (by simp)]
    rfl
  have hoffset : (UInt8.ofNat offset).toNat + 256 * (UInt8.ofNat (offset / 256)).toNat
      = offset := by
    rw [UInt8.toNat_ofNat', UInt8.toNat_ofNat']
    omega
  unfold sequence
  rw [token_div, token_mod, count_overflow]
  simp only [Option.elim_some, bind, Except.bind, htake, hdrop]
  rw [if_neg (by simp), if_neg (by omega)]
  simp only [hoffset]
  rw [if_neg (by omega)]
  simp only [pure, Except.pure, count_overflow, Option.elim_some]
  rw [if_neg (by simp only [Array.size_append, List.size_toArray, Array.length_toList]; omega),
    if_neg (by simp only [Array.size_append, List.size_toArray, Array.length_toList]; omega)]

end Sequence

/-! ## Searching -/

/-- Every position in the table is below `n`. -/
def TableBelow (table : Array Nat) (n : Nat) : Prop := ∀ i, table.getD i 0 < n

/-- A table of places below a bound keeps to a greater bound. -/
theorem TableBelow.mono {table : Array Nat} {m n : Nat} (h : TableBelow table m) (hle : m ≤ n) :
    TableBelow table n := fun i => Nat.lt_of_lt_of_le (h i) hle

/-- A table keeps to its bound with one more place below it. -/
theorem TableBelow.set {table : Array Nat} {n : Nat} (h : TableBelow table n) (place : Nat)
    {value : Nat} (hvalue : value < n) : TableBelow (table.setIfInBounds place value) n := by
  intro i
  have hi := h i
  rw [Array.getD_eq_getD_getElem?] at hi ⊢
  rw [Array.getElem?_setIfInBounds]
  split
  next =>
    split
    next => exact hvalue
    next => show 0 < n; omega
  next => exact hi

/-- A search that succeeds has found four bytes that stood before. -/
theorem search_spec {input : Array UInt8} :
    ∀ (fuel : Nat) {table table' : Array Nat} {misses cur found cand : Nat}, 32 ≤ misses →
      TableBelow table cur → search input fuel table misses cur = (table', some (found, cand)) →
      cur ≤ found ∧ found + 12 ≤ input.size ∧ cand < found ∧ found - cand ≤ maxDistance ∧
        word input cand = word input found ∧ TableBelow table' (found + 1) := by
  intro fuel
  induction fuel with
  | zero => intro table table' misses cur found cand _ _ h; simp [search] at h
  | succ fuel ih =>
    intro table table' misses cur found cand hmisses htable h
    have hset : TableBelow (table.setIfInBounds (slot input cur) cur) (cur + 1) :=
      (htable.mono (by omega)).set _ (by omega)
    rw [search] at h
    split at h
    next => simp at h
    next hroom =>
      dsimp only at h
      split at h
      next hfound =>
        simp only [Prod.mk.injEq, Option.some.injEq] at h
        obtain ⟨rfl, rfl, rfl⟩ := h
        exact ⟨Nat.le_refl _, by omega, htable _, hfound.1, hfound.2, hset⟩
      next =>
        -- the next place is behind this one, so all that the table names stays below it
        have hstride : 1 ≤ misses / 32 := by omega
        obtain ⟨hle, hrest⟩ := ih (by omega) (hset.mono (by omega)) h
        exact ⟨by omega, hrest⟩

/-- A word has its bytes in little-endian order. -/
theorem toNat_word (input : Array UInt8) (p : Nat) :
    (word input p).toNat = (input.getD p 0).toNat + 2 ^ 8 * (input.getD (p + 1) 0).toNat
      + 2 ^ 16 * (input.getD (p + 2) 0).toNat + 2 ^ 24 * (input.getD (p + 3) 0).toNat := by
  have h₀ := (input.getD p 0).toNat_lt
  have h₁ := (input.getD (p + 1) 0).toNat_lt
  have h₂ := (input.getD (p + 2) 0).toNat_lt
  have h₃ := (input.getD (p + 3) 0).toNat_lt
  have hshift : ∀ (b : UInt8) (k : Nat), k ≤ 24 →
      (b.toUInt32 <<< UInt32.ofNat k).toNat = b.toNat <<< k := by
    intro b k hk
    have hb := b.toNat_lt
    have hsmall : b.toNat * 2 ^ k < 2 ^ 32 :=
      calc b.toNat * 2 ^ k < 2 ^ 8 * 2 ^ k := Nat.mul_lt_mul_of_pos_right hb (Nat.two_pow_pos k)
        _ = 2 ^ (8 + k) := (Nat.pow_add 2 8 k).symm
        _ ≤ 2 ^ 32 := Nat.pow_le_pow_right (by omega) (by omega)
    rw [UInt32.toNat_shiftLeft, UInt32.toNat_ofNat', UInt8.toNat_toUInt32, Nat.shiftLeft_eq,
      Nat.mod_eq_of_lt (show k < 2 ^ 32 by omega), Nat.mod_eq_of_lt (show k < 32 by omega),
      Nat.shiftLeft_eq, Nat.mod_eq_of_lt hsmall]
  -- the bytes do not overlap, so putting them together adds them up
  have hor : ∀ (a b k : Nat), a < 2 ^ k → a ||| b <<< k = a + 2 ^ k * b := by
    intro a b k ha
    rw [Nat.or_comm, ← Nat.shiftLeft_add_eq_or_of_lt ha, Nat.shiftLeft_eq, Nat.add_comm,
      Nat.mul_comm]
  rw [word, UInt32.toNat_or, UInt32.toNat_or, UInt32.toNat_or, UInt8.toNat_toUInt32]
  rw [show (8 : UInt32) = UInt32.ofNat 8 from rfl, show (16 : UInt32) = UInt32.ofNat 16 from rfl,
    show (24 : UInt32) = UInt32.ofNat 24 from rfl, hshift _ 8 (by omega), hshift _ 16 (by omega),
    hshift _ 24 (by omega), hor _ _ 8 (by omega), hor _ _ 16 (by omega), hor _ _ 24 (by omega)]

/-- Equal words are four equal bytes. -/
theorem getD_of_word_eq {input : Array UInt8} {p q : Nat} (h : word input p = word input q) :
    ∀ i < 4, input.getD (p + i) 0 = input.getD (q + i) 0 := by
  have hnat := congrArg UInt32.toNat h
  rw [toNat_word, toNat_word] at hnat
  have hp₀ := (input.getD p 0).toNat_lt
  have hp₁ := (input.getD (p + 1) 0).toNat_lt
  have hp₂ := (input.getD (p + 2) 0).toNat_lt
  have hq₀ := (input.getD q 0).toNat_lt
  have hq₁ := (input.getD (q + 1) 0).toNat_lt
  have hq₂ := (input.getD (q + 2) 0).toNat_lt
  intro i hi
  apply UInt8.toNat_inj.mp
  match i, hi with
  | 0, _ => show (input.getD p 0).toNat = (input.getD q 0).toNat; omega
  | 1, _ => omega
  | 2, _ => omega
  | 3, _ => omega

/-- The bytes before two positions that were found equal are. -/
theorem equalBefore_spec (input : Array UInt8) (floor : Nat) :
    ∀ cur cand : Nat, floor ≤ cur →
      equalBefore input floor cur cand ≤ cand ∧ floor + equalBefore input floor cur cand ≤ cur ∧
      ∀ i, 1 ≤ i → i ≤ equalBefore input floor cur cand →
        input.getD (cur - i) 0 = input.getD (cand - i) 0 := by
  intro cur
  induction cur with
  | zero =>
    intro cand _
    simp only [equalBefore]
    exact ⟨by omega, by omega, fun i h₁ h₂ => absurd h₂ (by omega)⟩
  | succ cur ih =>
    intro cand hfloor
    cases cand with
    | zero =>
      simp only [equalBefore]
      exact ⟨by omega, by omega, fun i h₁ h₂ => absurd h₂ (by omega)⟩
    | succ cand =>
      rw [equalBefore]
      split
      next h =>
        obtain ⟨hcand, hcur, heq⟩ := ih cand (by omega)
        refine ⟨by omega, by omega, fun i h₁ h₂ => ?_⟩
        rcases Nat.lt_or_ge 1 i with hlt | hge
        · have := heq (i - 1) (by omega) (by omega)
          rwa [show cur - (i - 1) = cur + 1 - i by omega,
            show cand - (i - 1) = cand + 1 - i by omega] at this
        · rw [show i = 1 by omega]
          exact h.2
      next => exact ⟨by omega, by omega, fun i h₁ h₂ => absurd h₂ (by omega)⟩

/-- The bytes after two positions that were found equal are. -/
theorem equalAfter_spec (input : Array UInt8) :
    ∀ limit cur cand : Nat, equalAfter input limit cur cand ≤ limit ∧
      ∀ i < equalAfter input limit cur cand,
        input.getD (cur + i) 0 = input.getD (cand + i) 0 := by
  intro limit
  induction limit with
  | zero => intro cur cand; exact ⟨Nat.le_refl _, fun i hi => absurd hi (by simp [equalAfter])⟩
  | succ limit ih =>
    intro cur cand
    rw [equalAfter]
    split
    next h =>
      obtain ⟨hle, heq⟩ := ih (cur + 1) (cand + 1)
      refine ⟨by omega, fun i hi => ?_⟩
      cases i with
      | zero => exact h
      | succ i =>
        have := heq i (by omega)
        rwa [show cur + (i + 1) = cur + 1 + i by omega,
          show cand + (i + 1) = cand + 1 + i by omega]
    next => exact ⟨by omega, fun i hi => absurd hi (by omega)⟩

/-! ## Blocks -/

/-- The last literals are read back. -/
theorem sequences_lastLiterals {capacity : Nat} {out literals : Array UInt8} (steps : Nat)
    (hroom : out.size + literals.size ≤ capacity) :
    sequences capacity (steps + 1) out (lastLiterals literals).toList = .ok (out ++ literals) := by
  have hbytes : (lastLiterals literals).toList
      = UInt8.ofNat (nibble literals.size * 16)
        :: (overflow literals.size ++ literals.toList) := by
    simp [lastLiterals]
  rw [hbytes, sequences, sequence_lastLiterals hroom]
  rfl

/-- A sequence is read back, and then what follows it. -/
theorem sequences_copySequence {capacity : Nat} {out literals : Array UInt8} {offset extra : Nat}
    (steps : Nat) (rest : Bytes) (hpos : 0 < offset) (hle : offset ≤ maxDistance)
    (hback : offset ≤ out.size + literals.size)
    (hroom : out.size + literals.size + (extra + 4) ≤ capacity) :
    sequences capacity (steps + 1) out ((copySequence literals offset extra).toList ++ rest)
      = sequences capacity steps (copyBack (out ++ literals) offset (extra + 4)) rest := by
  have hbytes : (copySequence literals offset extra).toList ++ rest
      = UInt8.ofNat (nibble literals.size * 16 + nibble extra)
        :: (overflow literals.size ++ (literals.toList ++
          ([UInt8.ofNat offset, UInt8.ofNat (offset / 256)] ++ (overflow extra ++ rest)))) := by
    simp [copySequence]
  rw [hbytes, sequences, sequence_copySequence rest hpos hle hback hroom]
  rfl

theorem size_copySequence_pos (literals : Array UInt8) (offset extra : Nat) :
    0 < (copySequence literals offset extra).size := by
  simp only [copySequence, Array.size_append, List.size_toArray, List.length_singleton]
  omega

theorem size_lastLiterals_pos (literals : Array UInt8) : 0 < (lastLiterals literals).size := by
  simp only [lastLiterals, Array.size_append, List.size_toArray, List.length_singleton]
  omega

/-- A piece behind the front of the input makes a longer front. -/
theorem extract_append {input : Array UInt8} {i j : Nat} (h : i ≤ j) :
    input.extract 0 i ++ input.extract i j = input.extract 0 j := by
  rw [Array.extract_append_extract, Nat.min_eq_left (by omega), Nat.max_eq_right h]

/-- The literals from a place on end a block whose reader has come to that place. -/
theorem sequences_rest (input : Array UInt8) {literals steps : Nat} (hle : literals ≤ input.size)
    (hsteps : (lastLiterals (input.extract literals input.size)).size ≤ steps) :
    sequences input.size steps (input.extract 0 literals)
      (lastLiterals (input.extract literals input.size)).toList = .ok input := by
  have hpos := size_lastLiterals_pos (input.extract literals input.size)
  obtain ⟨steps, rfl⟩ : ∃ s, steps = s + 1 := ⟨steps - 1, by omega⟩
  rw [sequences_lastLiterals steps (by simp only [Array.size_extract]; omega), extract_append hle,
    Array.extract_size]

/-- Around two equal words the bytes repeat, as far as they were found equal. -/
theorem repeats_around (input : Array UInt8) {floor found cand : Nat} (limit : Nat)
    (hfloor : floor ≤ found) (hcand : cand < found) (hword : word input cand = word input found) :
    Repeats input (found - cand) (found - equalBefore input floor found cand)
      (equalAfter input limit (found + 4) (cand + 4) + equalBefore input floor found cand + 4) := by
  have hfour := getD_of_word_eq hword
  obtain ⟨hback_cand, hback_floor, hback⟩ := equalBefore_spec input floor found cand hfloor
  obtain ⟨-, hafter⟩ := equalAfter_spec input limit (found + 4) (cand + 4)
  generalize equalBefore input floor found cand = back at *
  generalize equalAfter input limit (found + 4) (cand + 4) = after at *
  intro i hi
  -- the bytes lie before, in, or after the four that the search compared
  rcases Nat.lt_or_ge i back with hbefore | hge
  · have := hback (back - i) (by omega) (by omega)
    rwa [show found - (back - i) = found - back + i by omega,
      show cand - (back - i) = found - back + i - (found - cand) by omega] at this
  · rcases Nat.lt_or_ge i (back + 4) with hin | hge'
    · have := hfour (i - back) (by omega)
      rw [show found + (i - back) = found - back + i by omega,
        show cand + (i - back) = found - back + i - (found - cand) by omega] at this
      exact this.symm
    · have := hafter (i - back - 4) (by omega)
      rwa [show found + 4 + (i - back - 4) = found - back + i by omega,
        show cand + 4 + (i - back - 4) = found - back + i - (found - cand) by omega] at this

/-- **What the compressor has yet to write leads a reader from the first unwritten byte to the
end.** The copy that a search finds is lengthened backwards to `start` and forwards to `stop`, and
all its bytes repeat those `found - cand` before. -/
theorem sequences_blocks (input : Array UInt8) :
    ∀ (fuel : Nat) (done : Array UInt8) (table : Array Nat) (literals cur : Nat),
      literals ≤ cur → literals ≤ input.size → TableBelow table cur →
      ∃ tail, blocks input fuel done table literals cur = done ++ tail ∧
        ∀ steps, tail.size ≤ steps →
          sequences input.size steps (input.extract 0 literals) tail.toList = .ok input := by
  intro fuel
  induction fuel with
  | zero =>
    intro done table literals cur _ hle _
    exact ⟨_, rfl, fun steps hsteps => sequences_rest input hle hsteps⟩
  | succ fuel ih =>
    intro done table literals cur hcur hle htable
    rw [blocks]
    split
    next => exact ⟨_, rfl, fun steps hsteps => sequences_rest input hle hsteps⟩
    next table' found cand hsearch =>
      obtain ⟨hfound, hroom, hcand, hdistance, hword, htable'⟩ :=
        search_spec _ (Nat.le_refl _) htable hsearch
      have hfloor := Nat.le_trans hcur hfound
      have hrepeats := repeats_around input (input.size - 6 - (found + 4)) hfloor hcand hword
      obtain ⟨hback_cand, hback_floor, -⟩ := equalBefore_spec input literals found cand hfloor
      obtain ⟨hafter_le, -⟩ :=
        equalAfter_spec input (input.size - 6 - (found + 4)) (found + 4) (cand + 4)
      generalize hbackdef : equalBefore input literals found cand = back at *
      generalize hafterdef :
        equalAfter input (input.size - 6 - (found + 4)) (found + 4) (cand + 4) = after at *
      -- the copy may reach into its own output, so it is restored byte by byte
      have hcopy : copyBack (input.extract 0 (found - back)) (found - cand) (after + back + 4)
          = input.extract 0 (found - back + 4 + (after + back)) := by
        rw [copyBack_extract (by omega) _ _ (by omega) (by omega) hrepeats]
        congr 1
        omega
      have hsize : (input.extract 0 literals).size + (input.extract literals (found - back)).size
          = found - back := by
        simp only [Array.size_extract]
        omega
      have hnext : TableBelow (table'.setIfInBounds
          (slot input (found - back + 4 + (after + back) - 2))
          (found - back + 4 + (after + back) - 2)) (found - back + 4 + (after + back)) :=
        (htable'.mono (by omega)).set _ (by omega)
      obtain ⟨tail, htail, hrest⟩ := ih
        (done ++ copySequence (input.extract literals (found - back)) (found - cand) (after + back))
        _ (found - back + 4 + (after + back)) (found - back + 4 + (after + back)) (Nat.le_refl _)
        (by omega) hnext
      refine ⟨copySequence (input.extract literals (found - back)) (found - cand) (after + back)
        ++ tail, ?_, fun steps hsteps => ?_⟩
      · simp only
        rw [htail, Array.append_assoc]
      · rw [Array.size_append] at hsteps
        have hpos := size_copySequence_pos (input.extract literals (found - back)) (found - cand)
          (after + back)
        obtain ⟨steps, rfl⟩ : ∃ s, steps = s + 1 := ⟨steps - 1, by omega⟩
        rw [Array.toList_append, sequences_copySequence steps tail.toList (by omega) hdistance
          (by omega) (by omega), extract_append (by omega), hcopy]
        exact hrest steps (by omega)

/-- **LZ4 blocks are restored.** -/
theorem decompress_compress (bs : Bytes) : decompress (compress bs) bs.length = .ok bs := by
  have hsize : bs.toArray.size = bs.length := List.size_toArray ..
  have hempty : bs.toArray.extract 0 0 = #[] := by simp
  have hdecode : ∀ steps, (compress bs).length ≤ steps →
      sequences bs.length steps #[] (compress bs) = .ok bs.toArray := by
    intro steps hsteps
    rw [compress] at hsteps ⊢
    split at hsteps
    next hshort =>
      rw [if_pos hshort]
      have hrest := sequences_rest bs.toArray (Nat.zero_le bs.toArray.size)
        (show _ ≤ steps by rwa [Array.extract_size, ← Array.length_toList])
      rwa [Array.extract_size, hempty, hsize] at hrest
    next hlong =>
      rw [if_neg hlong]
      have htable : TableBelow (Array.replicate 4096 0) 1 := by
        intro i
        rw [Array.getD_eq_getD_getElem?, Array.getElem?_replicate]
        split <;> exact Nat.one_pos
      obtain ⟨tail, htail, hrest⟩ := sequences_blocks bs.toArray bs.toArray.size #[]
        (Array.replicate 4096 0) 0 1 (Nat.zero_le _) (Nat.zero_le _) htable
      rw [htail, Array.empty_append] at hsteps ⊢
      have := hrest steps (by rwa [← Array.length_toList])
      rwa [hempty, hsize] at this
  rw [decompress, hdecode _ (Nat.le_succ _)]
  simp [Except.map]

end Lexicon.Lz4

import Lexicon.Varint
import Mathlib.Algebra.GroupWithZero.Nat

/-!
# What is read of a group

A group is told by its bytes alone: just the last of them has no mark that another follows. It
spells the sum of what its bytes carry (`spelled`), and the reader finds it if it is not too long.

> **`decode_exact`** — what is read is what the group spells without the bits beyond the width, and
> it is all of it just if the last byte's bits lie within;
> **`gather_eq_decode`** — so it is for a reader that puts the bits into a word one after the other.

A reader gives up where seven more bits would begin beyond the word. Where they begin within it and
end beyond, the bits beyond are lost, and no error tells of it (`decode_truncated`).
-/

namespace Lexicon.Varint

/-- The bytes are one group: just the last has no mark that another follows. -/
def Terminated (group : Bytes) : Prop :=
  ∃ marked last, group = marked ++ [last] ∧ (∀ b ∈ marked, 128 ≤ b.toNat) ∧ last.toNat < 128

/-- The number that a group spells: the sum of what its bytes carry, seven bits each, the lowest
first. -/
def spelled (group : Bytes) : Nat := (group.mapIdx fun i b => b.toNat % 128 * 128 ^ i).sum

/-- A factor goes into the sum over a row. -/
theorem sum_mapIdx_mul {α : Type} (c : Nat) (f : Nat → α → Nat) (xs : List α) :
    (xs.mapIdx fun i x => f i x * c).sum = c * (xs.mapIdx f).sum := by
  induction xs generalizing f with
  | nil => simp
  | cons x xs ih =>
    rw [List.mapIdx_cons, List.mapIdx_cons, List.sum_cons, List.sum_cons, ih fun i => f (i + 1),
      Nat.mul_add, Nat.mul_comm c (f 0 x)]

/-- The first byte stands for its last seven bits, the others for what is above. -/
theorem spelled_cons (b : UInt8) (rest : Bytes) :
    spelled (b :: rest) = b.toNat % 128 + 128 * spelled rest := by
  have hrest := sum_mapIdx_mul 128 (fun i b => (b : UInt8).toNat % 128 * 128 ^ i) rest
  rw [spelled, List.mapIdx_cons, List.sum_cons, Nat.pow_zero, Nat.mul_one, spelled, ← hrest]
  simp only [Nat.pow_succ, Nat.mul_assoc]

theorem spelled_singleton {b : UInt8} (hb : b.toNat < 128) : spelled [b] = b.toNat := by
  rw [spelled_cons, Nat.mod_eq_of_lt hb]
  rfl

/-- A group of bytes stands for a number of seven bits each. -/
theorem spelled_lt (group : Bytes) : spelled group < 128 ^ group.length := by
  induction group with
  | nil => simp [spelled]
  | cons b rest ih =>
    rw [spelled_cons, List.length_cons, Nat.pow_succ]
    omega

/-- A group in front stands for the lower bits. -/
theorem spelled_append (front rest : Bytes) :
    spelled (front ++ rest) = spelled front + spelled rest * 128 ^ front.length := by
  induction front with
  | nil => simp [spelled]
  | cons b front ih =>
    rw [List.cons_append, spelled_cons, spelled_cons, ih, List.length_cons, Nat.pow_succ,
      Nat.mul_add, Nat.add_assoc, Nat.mul_comm (128 ^ front.length), Nat.mul_left_comm]

/-! ## Groups at the front -/

theorem terminated_singleton {b : UInt8} (hb : b.toNat < 128) : Terminated [b] :=
  ⟨[], b, rfl, by simp, hb⟩

/-- A byte with its first bit set may stand in front of a group. -/
theorem Terminated.cons {b : UInt8} {group : Bytes} (hb : 128 ≤ b.toNat) (h : Terminated group) :
    Terminated (b :: group) := by
  obtain ⟨marked, last, rfl, hmarked, hlast⟩ := h
  exact ⟨b :: marked, last, rfl, List.forall_mem_cons.mpr ⟨hb, hmarked⟩, hlast⟩

/-- A group is one byte without a mark, or begins with one that has a mark and goes on as a group.
-/
theorem terminated_iff {group : Bytes} :
    Terminated group ↔ ∃ b rest, group = b :: rest ∧
      (b.toNat < 128 ∧ rest = [] ∨ 128 ≤ b.toNat ∧ Terminated rest) := by
  constructor
  · rintro ⟨marked, last, rfl, hmarked, hlast⟩
    cases marked with
    | nil => exact ⟨last, [], rfl, .inl ⟨hlast, rfl⟩⟩
    | cons b marked =>
      obtain ⟨hb, hmarked⟩ := List.forall_mem_cons.mp hmarked
      exact ⟨b, marked ++ [last], rfl, .inr ⟨hb, marked, last, rfl, hmarked, hlast⟩⟩
  · rintro ⟨b, rest, rfl, ⟨hb, rfl⟩ | ⟨hb, hrest⟩⟩
    · exact terminated_singleton hb
    · exact hrest.cons hb

/-- At the front of the bytes is a group of so many bytes, no more than the limit, that spells the
number. -/
def Spells (limit : Nat) (bs : Bytes) (n length : Nat) : Prop :=
  ∃ front rest, bs = front ++ rest ∧ Terminated front ∧ front.length = length ∧ length ≤ limit ∧
    spelled front = n

/-- **The group at the front is found** with what it spells, unless it is longer than allowed. -/
theorem group_eq_some_iff (limit : Nat) : ∀ {bs : Bytes} {n length : Nat},
    group limit bs = some (n, length) ↔ Spells limit bs n length := by
  induction limit with
  | zero =>
    intro bs n length
    refine ⟨fun h => by simp [group] at h, ?_⟩
    rintro ⟨front, rest, rfl, hfront, rfl, hlimit, rfl⟩
    obtain ⟨b, others, rfl, -⟩ := terminated_iff.mp hfront
    exact absurd hlimit (Nat.not_succ_le_zero _)
  | succ limit ih =>
    intro bs n length
    constructor
    · intro h
      cases bs with
      | nil => simp [group] at h
      | cons b bs =>
        rw [group] at h
        split at h
        next hb =>
          cases h
          exact ⟨[b], bs, rfl, terminated_singleton hb, rfl, Nat.le_add_left ..,
            spelled_singleton hb⟩
        next hb =>
          obtain ⟨⟨high, others⟩, hgroup, heq⟩ := Option.map_eq_some_iff.mp h
          obtain ⟨rfl, rfl⟩ := Prod.mk.inj heq
          obtain ⟨front, rest, rfl, hfront, rfl, hlimit, rfl⟩ := ih.mp hgroup
          exact ⟨b :: front, rest, rfl, hfront.cons (Nat.le_of_not_lt hb), rfl,
            Nat.succ_le_succ hlimit, spelled_cons b front⟩
    · rintro ⟨front, rest, rfl, hfront, rfl, hlimit, rfl⟩
      obtain ⟨b, others, rfl, ⟨hb, rfl⟩ | ⟨hb, hothers⟩⟩ := terminated_iff.mp hfront
      · rw [List.cons_append, group, if_pos hb, spelled_singleton hb]
        rfl
      · have hgroup : group limit (others ++ rest) = some (spelled others, others.length) :=
          ih.mpr ⟨others, rest, rfl, hothers, rfl, Nat.le_of_succ_le_succ hlimit, rfl⟩
        rw [List.cons_append, group, if_neg (Nat.not_lt.mpr hb), hgroup, spelled_cons]
        rfl

/-! ## Numbers of a width -/

/-- A word is full after so many bytes. -/
theorem width_le_iff (width count : Nat) : width ≤ 7 * count ↔ maxLength width ≤ count := by
  rw [maxLength]
  omega

/-- Seven bits make a factor of 128. -/
theorem pow_seven_mul (count : Nat) : 2 ^ (7 * count) = 128 ^ count := by
  rw [Nat.pow_mul]

/-- A group of no more bytes than a word needs fits it just if the bits of the last byte do. -/
theorem spelled_lt_iff {width : Nat} {marked : Bytes} {last : UInt8} (hlast : last.toNat < 128)
    (hlength : marked.length < maxLength width) :
    spelled (marked ++ [last]) < 2 ^ width ↔ last.toNat * 128 ^ marked.length < 2 ^ width := by
  have hlow := spelled_lt marked
  -- the bytes before the last end within the word, so that it is a multiple of what the last counts
  obtain ⟨more, rfl⟩ : ∃ more, width = 7 * marked.length + more :=
    Nat.exists_eq_add_of_le (by rw [maxLength] at hlength; omega)
  rw [spelled_append, spelled_singleton hlast, Nat.pow_add, pow_seven_mul]
  refine ⟨Nat.lt_of_le_of_lt (Nat.le_add_left ..), fun h => ?_⟩
  have hmore : last.toNat < 2 ^ more := by
    rw [Nat.mul_comm (128 ^ marked.length)] at h
    exact Nat.lt_of_mul_lt_mul_right h
  calc spelled marked + last.toNat * 128 ^ marked.length
      < 128 ^ marked.length + last.toNat * 128 ^ marked.length := Nat.add_lt_add_right hlow _
    _ = 128 ^ marked.length * (last.toNat + 1) := by rw [Nat.mul_succ, Nat.mul_comm, Nat.add_comm]
    _ ≤ 128 ^ marked.length * 2 ^ more := Nat.mul_le_mul_left _ hmore

/-- A number is decoded if a group spells it, as far as the width holds it. -/
theorem decode_eq_some_iff {width : Nat} {bs : Bytes} {n length : Nat} :
    decode width bs = some (n, length) ↔
      ∃ whole, Spells (maxLength width) bs whole length ∧ n = whole % 2 ^ width := by
  rw [decode, Option.map_eq_some_iff]
  constructor
  · rintro ⟨⟨whole, _⟩, hgroup, heq⟩
    obtain ⟨rfl, rfl⟩ := Prod.mk.inj heq
    exact ⟨whole, (group_eq_some_iff _).mp hgroup, rfl⟩
  · rintro ⟨whole, hspells, rfl⟩
    exact ⟨(whole, length), (group_eq_some_iff _).mpr hspells, rfl⟩

/-- Nothing is decoded if no group within the width ends. -/
theorem decode_eq_none_iff {width : Nat} {bs : Bytes} :
    decode width bs = none ↔ ∀ whole length, ¬ Spells (maxLength width) bs whole length := by
  constructor
  · intro hnone whole length hspells
    have hsome := decode_eq_some_iff.mpr ⟨whole, hspells, rfl⟩
    rw [hnone] at hsome
    cases hsome
  · intro hno
    refine Option.eq_none_iff_forall_ne_some.mpr fun (n, length) hsome => ?_
    obtain ⟨whole, hspells, -⟩ := decode_eq_some_iff.mp hsome
    exact hno whole length hspells

/-! ## Bit after bit -/

/-- The reader that puts seven bits of each byte into a word, one byte's behind the other's, for as
long as they begin within it. -/
def gather (width : Nat) (word : BitVec width) (shift count : Nat) :
    Bytes → Option (BitVec width × Nat)
  | [] => none
  | b :: rest =>
    if width ≤ shift then none
    else
      let word := word ||| BitVec.ofNat width (b.toNat % 128) <<< shift
      if b.toNat < 128 then some (word, count + 1)
      else gather width word (shift + 7) (count + 1) rest

/-- Bits that are put behind those of a word are added to it, as far as it reaches. -/
theorem toNat_or_shiftLeft {width shift : Nat} {word : BitVec width}
    (hword : word.toNat < 2 ^ shift) (n : Nat) :
    (word ||| BitVec.ofNat width n <<< shift).toNat = (word.toNat + n * 2 ^ shift) % 2 ^ width := by
  have hor : word.toNat ||| n * 2 ^ shift = word.toNat + n * 2 ^ shift := by
    rw [Nat.or_comm, Nat.mul_comm, ← Nat.two_pow_add_eq_or_of_lt hword, Nat.add_comm]
  rw [BitVec.toNat_or, BitVec.toNat_shiftLeft, BitVec.toNat_ofNat, Nat.shiftLeft_eq,
    Nat.mod_mul_mod, ← hor, Nat.or_mod_two_pow, Nat.mod_eq_of_lt word.isLt]

/-- Seven more bits take seven more bits of the word. -/
theorem toNat_or_shiftLeft_lt {width shift : Nat} {word : BitVec width}
    (hword : word.toNat < 2 ^ shift) {n : Nat} (hn : n < 128) :
    (word ||| BitVec.ofNat width n <<< shift).toNat < 2 ^ (shift + 7) := by
  have hdigit : n * 2 ^ shift ≤ 127 * 2 ^ shift := Nat.mul_le_mul_right _ (Nat.le_of_lt_succ hn)
  rw [toNat_or_shiftLeft hword, Nat.pow_add]
  refine Nat.lt_of_le_of_lt (Nat.mod_le ..) ?_
  omega

/-- Gathering bits comes to the number of the group. -/
theorem gather_spec (width : Nat) (bs : Bytes) : ∀ (word : BitVec width) (count : Nat),
    word.toNat < 2 ^ (7 * count) →
      (gather width word (7 * count) count bs).map (Prod.map BitVec.toNat id)
        = (group (maxLength width - count) bs).map fun (n, length) =>
          ((word.toNat + n * 2 ^ (7 * count)) % 2 ^ width, count + length) := by
  induction bs with
  | nil =>
    intro word count _
    cases maxLength width - count <;> rfl
  | cons b bs ih =>
    intro word count hword
    rw [gather]
    by_cases hfull : width ≤ 7 * count
    · have hnone : maxLength width - count = 0 := Nat.sub_eq_zero_of_le ((width_le_iff ..).mp hfull)
      rw [if_pos hfull, hnone]
      rfl
    · obtain ⟨more, hmore⟩ : ∃ more, maxLength width - count = more + 1 :=
        Nat.exists_eq_succ_of_ne_zero fun h =>
          hfull ((width_le_iff ..).mpr (Nat.le_of_sub_eq_zero h))
      have hnext := toNat_or_shiftLeft hword (b.toNat % 128)
      rw [if_neg hfull, hmore, group]
      by_cases hb : b.toNat < 128
      · rw [Nat.mod_eq_of_lt hb] at hnext ⊢
        simp [hb, hnext]
      · have hlow : b.toNat % 128 < 128 := Nat.mod_lt _ (by decide)
        have hrest := ih _ (count + 1) (toNat_or_shiftLeft_lt hword hlow)
        rw [show maxLength width - (count + 1) = more by omega, hnext] at hrest
        rw [if_neg hb, if_neg hb, Option.map_map]
        refine hrest.trans (congrArg (Option.map · _) (funext fun (high, length) => ?_))
        refine Prod.ext ?_ ?_
        · show ((word.toNat + b.toNat % 128 * 2 ^ (7 * count)) % 2 ^ width
              + high * 2 ^ (7 * count + 7)) % 2 ^ width
            = (word.toNat + (b.toNat % 128 + 128 * high) * 2 ^ (7 * count)) % 2 ^ width
          rw [Nat.mod_add_mod, Nat.add_mul, Nat.add_assoc, Nat.pow_add, Nat.mul_comm _ (2 ^ 7),
            ← Nat.mul_assoc, Nat.mul_comm high (2 ^ 7)]
        · show count + 1 + length = count + (length + 1)
          omega

/-- **Putting bits into a word is reading**, with the same bits lost. -/
theorem gather_eq_decode (width : Nat) (bs : Bytes) :
    (gather width 0 0 0 bs).map (Prod.map BitVec.toNat id) = decode width bs := by
  have hgather := gather_spec width bs 0 0 (by simp)
  simpa [decode] using hgather

/-! ## What is read -/

/-- **Just the group at the front is read**, if it is not longer than the width needs; what is read
is what it spells without the bits beyond the width. Where there is no such group, nothing is read.
What is read is all that the group spells just if the bits of its last byte lie within the width. -/
theorem decode_exact (width : Nat) (bs : Bytes) :
    (∀ n length, decode width bs = some (n, length) ↔
      ∃ whole, Spells (maxLength width) bs whole length ∧ n = whole % 2 ^ width) ∧
    (decode width bs = none ↔ ∀ whole length, ¬ Spells (maxLength width) bs whole length) ∧
    ∀ marked last rest, bs = marked ++ last :: rest → (∀ b ∈ marked, 128 ≤ b.toNat) →
      last.toNat < 128 → marked.length < maxLength width →
      (decode width bs = some (spelled (marked ++ [last]), marked.length + 1) ↔
        last.toNat * 128 ^ marked.length < 2 ^ width) := by
  refine ⟨fun n length => decode_eq_some_iff, decode_eq_none_iff, ?_⟩
  intro marked last rest hbs hmarked hlast hlength
  have hspells : Spells (maxLength width) bs (spelled (marked ++ [last])) (marked.length + 1) :=
    ⟨marked ++ [last], rest, by simpa using hbs, ⟨marked, last, rfl, hmarked, hlast⟩, by simp,
      hlength, rfl⟩
  have hread := decode_eq_some_iff.mpr ⟨_, hspells, rfl⟩
  rw [hread, Option.some.injEq, Prod.mk.injEq, and_iff_left rfl,
    Nat.mod_eq_iff_lt (Nat.pos_iff_ne_zero.mp (Nat.two_pow_pos width)),
    spelled_lt_iff hlast hlength]

example : maxLength 32 = 5 ∧ maxLength 64 = 10 := by decide

/-- The fifth byte of a number of 32 bits carries four of them. -/
theorem decode_exact_brim :
    decode 32 [128, 128, 128, 128, 15, 7] = some (15 * 128 ^ 4, 5) ∧
      decode 32 [128, 128, 128, 128, 16, 7] ≠ some (16 * 128 ^ 4, 5) := by
  have hmarked : ∀ b ∈ ([128, 128, 128, 128] : Bytes), 128 ≤ b.toNat := by simp
  have hfits := (decode_exact 32 [128, 128, 128, 128, 15, 7]).2.2 [128, 128, 128, 128] 15 [7] rfl
    hmarked (by decide) (by decide)
  have hexceeds := (decode_exact 32 [128, 128, 128, 128, 16, 7]).2.2 [128, 128, 128, 128] 16 [7] rfl
    hmarked (by decide) (by decide)
  exact ⟨hfits.mpr (by decide +kernel), fun h => absurd (hexceeds.mp h) (by decide +kernel)⟩

/-- A group that spells the first number with more bits than the width is read as zero. -/
theorem decode_truncated :
    decode 32 [128, 128, 128, 128, 16] = some (0, 5) ∧
      Spells 5 [128, 128, 128, 128, 16] (2 ^ 32) 5 ∧ ¬ Spells 5 [128, 128, 128, 128, 16] 0 5 ∧
    decode 64 [128, 128, 128, 128, 128, 128, 128, 128, 128, 2] = some (0, 10) ∧
      Spells 10 [128, 128, 128, 128, 128, 128, 128, 128, 128, 2] (2 ^ 64) 10 ∧
      ¬ Spells 10 [128, 128, 128, 128, 128, 128, 128, 128, 128, 2] 0 10 := by
  simp only [← group_eq_some_iff]
  decide

end Lexicon.Varint

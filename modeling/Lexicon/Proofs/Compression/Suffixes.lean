import Lexicon.Compression.Choice
import Lexicon.Proofs.Compression.Lowercase
import Lexicon.Proofs.Compression.Lz4

/-!
# Suffix compression is lossless and pays

Whatever `compressSuffixes` chooses is shorter than what it stands for, is never the mark for stored
bytes, and is restored by the reader.

> **`compressSuffixes_lossless`** — this, and which texts the packer refuses.
-/

namespace Lexicon

/-- Compression is only chosen where it makes the suffixes shorter. -/
theorem length_compressSuffixes_lt {suffixes payload : Bytes} {entries depth : Nat}
    {c : Compression} (h : compressSuffixes suffixes entries depth = some (c, payload)) :
    payload.length < suffixes.length := by
  have hlowercase : (Lowercase.compress suffixes).map (Compression.lowercase, ·)
      = some (c, payload) → payload.length < suffixes.length := by
    intro h
    obtain ⟨packed, hpacked, heq⟩ := Option.map_eq_some_iff.mp h
    cases heq
    exact (Lowercase.compress_eq_some hpacked).2
  rw [compressSuffixes] at h
  split at h
  next => cases h
  next =>
    split at h
    next =>
      dsimp only at h
      split at h
      next hshorter =>
        cases h
        exact Nat.lt_of_lt_of_le hshorter (Nat.sub_le _ _)
      next => exact hlowercase h
    next => exact hlowercase h

theorem decompress_compressSuffixes {suffixes payload : Bytes} {entries depth : Nat}
    {c : Compression} (hmeasured : c = .lowercase → Lowercase.Measured suffixes)
    (h : compressSuffixes suffixes entries depth = some (c, payload)) :
    c ≠ .none ∧ payload.length < suffixes.length ∧
      c.decompress payload suffixes.length = .ok suffixes := by
  suffices h : c ≠ .none ∧ c.decompress payload suffixes.length = .ok suffixes from
    ⟨h.1, length_compressSuffixes_lt ‹_›, h.2⟩
  have hlowercase : (Lowercase.compress suffixes).map (Compression.lowercase, ·)
      = some (c, payload) → c ≠ .none ∧ c.decompress payload suffixes.length = .ok suffixes := by
    intro h
    obtain ⟨packed, hpacked, heq⟩ := Option.map_eq_some_iff.mp h
    obtain ⟨rfl, rfl⟩ := Prod.mk.inj heq
    refine ⟨by decide, ?_⟩
    rw [Compression.decompress, Lowercase.decompress_compress (hmeasured rfl) hpacked]
    exact if_pos rfl
  rw [compressSuffixes] at h
  split at h
  next => exact absurd h (by simp)
  next =>
    split at h
    next =>
      dsimp only at h
      split at h
      next =>
        obtain ⟨rfl, rfl⟩ := Prod.mk.inj (Option.some.inj h)
        refine ⟨by decide, ?_⟩
        rw [Compression.decompress, Lz4.decompress_compress]
        exact if_pos rfl
      next => exact hlowercase h
    next => exact hlowercase h

/-- **Suffix compression is lossless and always pays.** What is chosen is shorter than the suffixes
and is restored to them; so is every text that is packed; and a text is refused just if it is short,
has too many foreign bytes or would not get shorter, of which the last never decides. Packing counts
in words of 32 bits, and texts of four gigabytes and more have to be measured. -/
theorem compressSuffixes_lossless (suffixes : Bytes) :
    (∀ entries depth c payload, compressSuffixes suffixes entries depth = some (c, payload) →
      payload.length < suffixes.length ∧
        ((c = .lowercase → Lowercase.Measured suffixes) →
          (Compression.ofCode c.code >>= fun c => c.decompress payload suffixes.length)
            = .ok suffixes)) ∧
    (∀ packed, Lowercase.compress suffixes = some packed →
      packed.length < suffixes.length ∧
        (Lowercase.Measured suffixes →
          Lowercase.decompress packed suffixes.length = .ok suffixes)) ∧
    (suffixes.length < 2 ^ 32 → Lowercase.Measured suffixes) ∧
    (Lowercase.compress suffixes = none ↔ suffixes.length < 8 ∨
      suffixes.length / 32 < suffixes.countP Lowercase.foreign ∨
      suffixes.length ≤ (Lowercase.pack suffixes).length) ∧
    (suffixes.length ≤ (Lowercase.pack suffixes).length → suffixes.length < 8 ∨
      suffixes.length / 32 < suffixes.countP Lowercase.foreign) := by
  refine ⟨fun entries depth c payload h => ⟨length_compressSuffixes_lt h, fun hmeasured => ?_⟩,
    fun packed h => ⟨(Lowercase.compress_eq_some h).2, fun hmeasured => ?_⟩,
    Lowercase.measured_of_length_lt, Lowercase.compress_eq_none_iff, fun hlonger => ?_⟩
  · obtain ⟨-, -, hrestored⟩ := decompress_compressSuffixes hmeasured h
    rw [Compression.ofCode_code]
    exact hrestored
  · exact Lowercase.decompress_compress hmeasured h
  · by_contra hnot
    rw [not_or, Nat.not_lt, Nat.not_lt, ← Lowercase.length_exceptions suffixes 0] at hnot
    have := Lowercase.length_pack_lt hnot.1 hnot.2
    omega

/-- Lower-case text with two bytes in front that six bits do not stand for. -/
def capitalized : Bytes := [0x51, 0xFF] ++ List.replicate 62 0x71

theorem compressSuffixes_lossless_capitalized :
    Lowercase.Measured capitalized ∧
    ∃ payload, compressSuffixes capitalized 16 3 = some (.lowercase, payload) ∧
      payload.length < 64 ∧
      (Compression.ofCode 1 >>= fun c => c.decompress payload 64) = .ok capitalized := by
  obtain ⟨hlossless, -, hmeasured, -, -⟩ := compressSuffixes_lossless capitalized
  have hchosen : (compressSuffixes capitalized 16 3).map (·.1) = some .lowercase := by
    decide +kernel
  obtain ⟨⟨c, payload⟩, hsome, rfl⟩ := Option.map_eq_some_iff.mp hchosen
  have hmeasured := hmeasured (by decide)
  obtain ⟨hshorter, hrestored⟩ := hlossless 16 3 _ payload hsome
  exact ⟨hmeasured, payload, hsome, hshorter, hrestored fun _ => hmeasured⟩

end Lexicon

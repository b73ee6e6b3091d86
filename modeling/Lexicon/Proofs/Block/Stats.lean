import Lexicon.Block.Stats
import Lexicon.Proofs.Reading

/-!
# The statistics of a block are read back

The reader of a row of statistics is always in front of some rest of the row: first the single terms
that remain of the record it has read last, then the terms whose records are still unread
(`Reader.Before`). `Reader.next_spec` takes one term off that rest, and at the end of the row the
reader is exhausted.
-/

namespace Lexicon

/-- The highest bit is shifted out. -/
theorem toNat_shiftLeft_one (n : UInt32) : (n <<< 1).toNat = 2 * (n.toNat % 2 ^ 31) := by
  rw [UInt32.toNat_shiftLeft, Nat.shiftLeft_eq]
  show n.toNat * 2 % 2 ^ 32 = 2 * (n.toNat % 2 ^ 31)
  omega

/-- A number whose highest bit is free is doubled. -/
theorem toNat_shiftLeft_one_of_lt {n : UInt32} (hn : n.toNat < 2 ^ 31) :
    (n <<< 1).toNat = 2 * n.toNat := by
  rw [toNat_shiftLeft_one, Nat.mod_eq_of_lt hn]

namespace BlockStats

open Read

/-- The statistics as a field keeps them: without frequencies, a term occurs once in each
document. -/
def kept (hasFreqs : Bool) (s : TermStats) : TermStats :=
  if hasFreqs then s else ⟨s.docFreq, s.docFreq.toUInt64⟩

/-- What a record can hold. -/
def Recordable (hasFreqs : Bool) (s : TermStats) : Prop :=
  s.docFreq.toNat < 2 ^ 31 ∧ (hasFreqs → s.docFreq.toNat ≤ s.totalFreq.toNat)

/-- What a run counts is one document with one occurrence. -/
theorem kept_of_single {hasFreqs : Bool} {s : TermStats} (h : single hasFreqs s = true) :
    kept hasFreqs s = ⟨1, 1⟩ := by
  obtain ⟨docFreq, totalFreq⟩ := s
  cases hasFreqs with
  | false =>
    have hdoc : docFreq = 1 := by simpa [single] using h
    subst hdoc
    rfl
  | true =>
    obtain ⟨rfl, rfl⟩ : docFreq = 1 ∧ totalFreq = 1 := by simpa [single] using h
    rfl

/-! ## Records -/

/-- A record of equal statistics is taken with their count. -/
theorem takes_record_run (hasFreqs : Bool) {count : Nat} (hcount : count < 2 ^ 31) :
    Takes (Reader.record hasFreqs) (Item.encodeAll (runItems (count + 1))) (⟨1, 1⟩, count) := by
  rw [runItems, if_neg (by omega), Item.encodeAll_cons, Item.encodeAll_nil, Reader.record]
  refine (takes_nat32 (by omega)).bind ?_
  rw [if_pos (by omega), show (2 * (count + 1 - 1) + 1) / 2 = count by omega]
  exact takes_pure _

/-- A record of a term is taken as what is kept of it. -/
theorem takes_record_term {hasFreqs : Bool} {s : TermStats} (hs : Recordable hasFreqs s) :
    Takes (Reader.record hasFreqs) (Item.encodeAll (termItems hasFreqs s))
      (kept hasFreqs s, 0) := by
  obtain ⟨hdoc, htotal⟩ := hs
  have hback : UInt32.ofNat s.docFreq.toNat = s.docFreq := UInt32.ofNat_toNat
  have hwide : UInt64.ofNat s.docFreq.toNat = s.docFreq.toUInt64 := UInt64.toNat_inj.mp (by simp)
  rw [termItems, Item.encodeAll_cons, Reader.record]
  refine (takes_vint_item _).bind ?_
  rw [toNat_shiftLeft_one_of_lt hdoc, if_neg (by omega), Nat.mul_div_cancel_left _ (by omega)]
  cases hasFreqs with
  | false =>
    intro position rest
    simp only [Bool.false_eq_true, if_false, Item.encodeAll_nil, List.nil_append,
      List.length_nil, Nat.add_zero]
    show EStateM.Result.ok (TermStats.mk _ _, 0) _ = _
    rw [Nat.add_zero, hback, hwide]
    rfl
  | true =>
    have hle := htotal rfl
    have hsub : (s.totalFreq - s.docFreq.toUInt64).toNat = s.totalFreq.toNat - s.docFreq.toNat := by
      rw [UInt64.toNat_sub_of_le _ _ (by rw [UInt64.le_iff_toNat_le]; simpa using hle)]
      simp
    simp only [if_true, Item.encodeAll_singleton, hback]
    have htake := (takes_vlong_item (s.totalFreq - s.docFreq.toUInt64)).bind_pure
      (f := fun more => ((⟨s.docFreq, UInt64.ofNat (s.docFreq.toNat + more)⟩ : TermStats), 0))
    rwa [hsub, Nat.add_sub_cancel' hle, UInt64.ofNat_toNat] at htake

/-! ## The row -/

/-- Single terms that were counted come before all else. -/
theorem items_eq_run (hasFreqs : Bool) (row : List TermStats) :
    ∀ count, ∃ singles rest, row = singles ++ rest ∧ (∀ s ∈ singles, single hasFreqs s = true) ∧
      items hasFreqs count row
        = runItems (count + singles.length) ++ items hasFreqs 0 rest := by
  induction row with
  | nil => intro count; exact ⟨[], [], rfl, by simp, by simp [items, runItems]⟩
  | cons s row ih =>
    intro count
    by_cases hs : single hasFreqs s = true
    · obtain ⟨singles, rest, hrow, hsingles, hitems⟩ := ih (count + 1)
      refine ⟨s :: singles, rest, by rw [hrow]; rfl, ?_, ?_⟩
      · intro x hx
        rcases List.mem_cons.mp hx with rfl | hx
        · exact hs
        · exact hsingles x hx
      · rw [items, if_pos hs, hitems, List.length_cons, Nat.add_right_comm, Nat.add_assoc]
    · refine ⟨[], s :: row, rfl, by simp, ?_⟩
      rw [items, if_neg hs, items, if_neg hs]
      simp [runItems]

/-- A run is so many times one document with one occurrence. -/
theorem map_kept_singles {hasFreqs : Bool} {row : List TermStats}
    (h : ∀ s ∈ row, single hasFreqs s = true) :
    row.map (kept hasFreqs) = List.replicate row.length ⟨1, 1⟩ := by
  rw [List.eq_replicate_iff]
  refine ⟨List.length_map .., fun x hx => ?_⟩
  obtain ⟨y, hy, rfl⟩ := List.mem_map.mp hx
  exact kept_of_single (h y hy)

namespace Reader

/-- The reader is in front of these terms, after which its bytes end. -/
def Before (r : Reader) (hasFreqs : Bool) (row : List TermStats) : Prop :=
  r.hasFreqs = hasFreqs ∧ ∃ unread, r.input.rest = Item.encodeAll (items hasFreqs 0 unread) ∧
    row.map (kept hasFreqs)
      = List.replicate r.singles ⟨1, 1⟩ ++ unread.map (kept hasFreqs) ∧
    unread.length < 2 ^ 31 ∧ ∀ s ∈ unread, Recordable hasFreqs s

/-- A reader starts before all statistics. -/
theorem before_start {hasFreqs : Bool} {row : List TermStats} (hlength : row.length < 2 ^ 31)
    (hrow : ∀ s ∈ row, Recordable hasFreqs s) :
    Before { input := .start (encode hasFreqs row), hasFreqs } hasFreqs row :=
  ⟨rfl, row, rfl, rfl, hlength, hrow⟩

/-- **The next term is the first of those in front of the reader.** -/
theorem next_spec {r : Reader} {hasFreqs : Bool} {s : TermStats} {row : List TermStats}
    (h : r.Before hasFreqs (s :: row)) :
    ∃ r', next r = .ok (kept hasFreqs s) r' ∧ r'.Before hasFreqs row := by
  obtain ⟨rfl, unread, hrest, hrow, hlength, hunread⟩ := h
  obtain ⟨⟨position, bytes⟩, hasFreqs, singles⟩ := r
  simp only at hrest hrow hunread
  cases singles with
  | succ singles =>
    -- one of the single terms that were read as a run
    simp only [List.map_cons, List.replicate_succ, List.cons_append, List.cons.injEq] at hrow
    refine ⟨⟨⟨position, bytes⟩, hasFreqs, singles⟩, ?_, rfl, unread, hrest, hrow.2, hlength,
      hunread⟩
    rw [hrow.1]
    rfl
  | zero =>
    simp only [List.replicate_zero, List.nil_append] at hrow
    cases unread with
    | nil => simp at hrow
    | cons t unread =>
      simp only [List.map_cons, List.cons.injEq] at hrow
      obtain ⟨hst, hrow⟩ := hrow
      rw [List.length_cons] at hlength
      by_cases hsingle : single hasFreqs t = true
      · -- A run starts here, which the next terms may belong to.
        obtain ⟨more, rest, rfl, hmore, hitems⟩ := items_eq_run hasFreqs unread 1
        have hfirst : items hasFreqs 0 (t :: (more ++ rest))
            = runItems (more.length + 1) ++ items hasFreqs 0 rest := by
          rw [items, if_pos hsingle, Nat.zero_add, hitems, Nat.add_comm]
        rw [hfirst, Item.encodeAll_append] at hrest
        rw [List.length_append] at hlength
        have hread := takes_record_run hasFreqs (show more.length < 2 ^ 31 by omega) position
          (Item.encodeAll (items hasFreqs 0 rest))
        refine ⟨⟨⟨position + (Item.encodeAll (runItems (more.length + 1))).length,
          Item.encodeAll (items hasFreqs 0 rest)⟩, hasFreqs, more.length⟩, ?_, rfl, rest, rfl, ?_,
          by omega, fun s hs => hunread s (by simp [hs])⟩
        · rw [next, if_neg (by simp), hrest]
          simp only [hread]
          rw [hst, kept_of_single hsingle]
        · rw [hrow, List.map_append, map_kept_singles hmore]
      · -- The term has a record of its own.
        have hfirst : items hasFreqs 0 (t :: unread)
            = termItems hasFreqs t ++ items hasFreqs 0 unread := by
          rw [items, if_neg hsingle]
          rfl
        rw [hfirst, Item.encodeAll_append] at hrest
        have hread := takes_record_term (hunread t (List.mem_cons_self ..)) position
          (Item.encodeAll (items hasFreqs 0 unread))
        refine ⟨⟨⟨position + (Item.encodeAll (termItems hasFreqs t)).length,
          Item.encodeAll (items hasFreqs 0 unread)⟩, hasFreqs, 0⟩, ?_, rfl, unread, rfl, ?_,
          by omega, fun s hs => hunread s (by simp [hs])⟩
        · rw [next, if_neg (by simp), hrest]
          simp only [hread]
          rw [hst]
        · rw [hrow]
          rfl

/-- A reader behind all statistics is exhausted. -/
theorem exhausted_of_before_nil {r : Reader} {hasFreqs : Bool} (h : r.Before hasFreqs []) :
    r.exhausted = true := by
  obtain ⟨-, unread, hrest, hrow, -, -⟩ := h
  rw [List.map_nil] at hrow
  obtain ⟨hsingles, hunread⟩ := List.append_eq_nil_iff.mp hrow.symm
  have hnone : unread = [] := List.map_eq_nil_iff.mp hunread
  have hzero : r.singles = 0 := by simpa using congrArg List.length hsingles
  subst hnone
  simp [exhausted, hzero, Cursor.atEnd, hrest, items, runItems]

end Reader

end BlockStats

end Lexicon

import Lexicon.Proofs.Field.Directory
import Lexicon.Proofs.Order
import Mathlib.Data.List.Perm.Subperm

/-!
# Which directories are accepted

A record of a directory tells neither its length nor which of its parts it has: whether there is a
sum of frequencies, the reader knows from the descriptor of the field. So it is asked of a written
directory that its summaries fit their descriptors, and then its reader accepts it just if it is
well-formed (`Directory.WellFormed`): each summary agrees with itself, and their numbers increase.

> **`Directory.accepts_iff`** — the bytes of a well-formed directory are read back, those of any
> other are refused as corrupt.

The reader stops at the first fault (`Directory.refused_readFields`); it may also stop before all
summaries if there are more of them than fields, which numbers that increase never are
(`WellFormed.length_le`).
-/

namespace Lexicon

open Read

namespace FieldSummary

/-- The numbers of a summary agree with each other. -/
def Consistent (s : FieldSummary) : Prop :=
  if s.terms = 0 then s.rootCode = [] ∧ s.sumDocFreq = 0 ∧ s.docCount = 0
  else s.rootCode ≠ [] ∧ s.docCount.toNat ≤ s.sumDocFreq.toNat ∧
    (∀ total ∈ s.sumTotalFreq, s.sumDocFreq ≤ total) ∧ s.minTerm ≤ s.maxTerm

/-- **Only consistent summaries pass the check**, whatever their field is called. -/
theorem check_eq_ok_iff (s : FieldSummary) (name : String) :
    s.check name = .ok () ↔ s.Consistent := by
  have htotal : s.sumTotalFreq.filter (· < s.sumDocFreq) = none ↔
      ∀ total ∈ s.sumTotalFreq, s.sumDocFreq ≤ total := by
    cases s.sumTotalFreq with
    | none => simp
    | some total => simp [Option.filter_some]
  rw [check, Consistent]
  by_cases hterms : s.terms = 0
  · rw [if_pos hterms, if_pos hterms]
    split
    next h => exact ⟨nofun, fun hnone => absurd h (by simp [hnone])⟩
    next h => simpa [not_or] using h
  rw [if_neg hterms, if_neg hterms]
  by_cases hroot : s.rootCode = []
  · simp [hroot]
  by_cases hdocs : s.sumDocFreq.toNat < s.docCount.toNat
  · simp [hroot, hdocs, Nat.not_le.mpr hdocs]
  rw [if_neg hroot, if_neg hdocs, ← htotal]
  cases hfilter : s.sumTotalFreq.filter (· < s.sumDocFreq) with
  | some total => simp
  | none =>
    by_cases hterm : s.maxTerm < s.minTerm
    · simp [hterm, List.not_le.mpr hterm]
    · simp [hroot, hterm, List.not_lt.mp hterm, Nat.le_of_not_lt hdocs]

instance (s : FieldSummary) : Decidable s.Consistent :=
  decidable_of_iff ((s.check "").isOk = true) (by
    rw [← s.check_eq_ok_iff ""]
    cases s.check "" <;> simp [Except.isOk, Except.toBool])

/-- Whatever the check refuses is called corrupt. -/
theorem corrupt_of_check {s : FieldSummary} {name : String} {e : Error}
    (h : s.check name = .error e) : ∃ cause, e = .corrupt cause := by
  rw [check] at h
  repeat' split at h
  all_goals cases h
  all_goals exact ⟨_, rfl⟩

end FieldSummary

namespace Directory

/-- Summaries that a reader accepts behind one with the given number. -/
structure InOrder (previous : Option UInt32) (fields : List FieldSummary) : Prop where
  consistent : ∀ s ∈ fields, s.Consistent
  above : ∀ p, previous = some p → ∀ s ∈ fields, p < s.number
  increasing : fields.Pairwise (·.number < ·.number)

theorem InOrder.cons {previous : Option UInt32} {s : FieldSummary} {fields : List FieldSummary}
    (hs : s.Consistent) (habove : ∀ p, previous = some p → p < s.number)
    (h : InOrder (some s.number) fields) : InOrder previous (s :: fields) := by
  have hfirst : ∀ x ∈ fields, s.number < x.number := h.above s.number rfl
  refine ⟨List.forall_mem_cons.mpr ⟨hs, h.consistent⟩, fun p hp x hx => ?_,
    List.pairwise_cons.mpr ⟨hfirst, h.increasing⟩⟩
  rcases List.mem_cons.mp hx with rfl | hx
  · exact habove p hp
  · exact UInt32.lt_trans (habove p hp) (hfirst x hx)

/-- Summaries that are out of order are refused, wherever the fault is. -/
theorem refused_readFields {infos : List FieldInfo} (fields : List FieldSummary) :
    ∀ previous : Option UInt32, (∀ s ∈ fields, ∃ info, s.Legible infos info) →
      ¬ InOrder previous fields →
      ∃ cause, Fails (readFields infos previous fields.length)
        (Item.encodeAll (fields.flatMap FieldSummary.items)) (.corrupt cause) := by
  induction fields with
  | nil =>
    intro previous _ hnot
    exact absurd ⟨by simp, by simp, .nil⟩ hnot
  | cons s fields ih =>
    intro previous hlegible hnot
    obtain ⟨info, hs⟩ := hlegible s (List.mem_cons_self ..)
    have hread := FieldSummary.leads_read hs
    rw [List.flatMap_cons, Item.encodeAll_append, List.length_cons, readFields]
    cases hcheck : s.check info.name with
    | error e =>
      -- the numbers of the summary do not agree
      obtain ⟨cause, rfl⟩ := FieldSummary.corrupt_of_check hcheck
      rw [hcheck] at hread
      exact ⟨cause, hread.fails.bind _ _⟩
    | ok =>
      rw [hcheck] at hread
      cases hpassed : previous.filter (s.number ≤ ·) with
      | some p =>
        -- the summary is not above the one before
        refine ⟨.fieldOrder s.number.toNat p.toNat, hread.takes.bind_fails ?_⟩
        simp only [hpassed]
        exact fails_corrupt _ _
      | none =>
        -- the fault is further on
        have habove : ∀ p, previous = some p → p < s.number := by
          rintro p rfl
          simpa [Option.filter_some] using hpassed
        obtain ⟨cause, hfails⟩ := ih (some s.number)
          (fun x hx => hlegible x (List.mem_cons_of_mem _ hx))
          fun h => hnot (h.cons ((s.check_eq_ok_iff info.name).mp hcheck) habove)
        refine ⟨cause, hread.takes.bind_fails ?_⟩
        simp only [hpassed]
        exact hfails.bind_pure

/-- The summaries agree with themselves and come in the order of their numbers. -/
def WellFormed (d : Directory) : Prop :=
  d.fields.Pairwise (·.number < ·.number) ∧ ∀ s ∈ d.fields, s.Consistent

instance (d : Directory) : Decidable d.WellFormed := inferInstanceAs (Decidable (_ ∧ _))

theorem inOrder_none_iff (d : Directory) : InOrder none d.fields ↔ d.WellFormed :=
  ⟨fun h => ⟨h.increasing, h.consistent⟩, fun h => ⟨h.2, by simp, h.1⟩⟩

variable {infos : List FieldInfo} {d : Directory}

/-- Numbers that increase are no more than the fields that have them. -/
theorem WellFormed.length_le (h : d.WellFormed)
    (hknown : ∀ s ∈ d.fields, ∃ info ∈ infos, info.number = s.number) :
    d.fields.length ≤ infos.length := by
  have hnodup : (d.fields.map (·.number)).Nodup :=
    List.pairwise_map.mpr (h.1.imp fun hlt => UInt32.ne_of_lt hlt)
  have hsub : d.fields.map (·.number) ⊆ infos.map (·.number) := by
    intro number hnumber
    obtain ⟨s, hs, rfl⟩ := List.mem_map.mp hnumber
    obtain ⟨info, hinfo, heq⟩ := hknown s hs
    exact List.mem_map.mpr ⟨info, hinfo, heq⟩
  simpa using (List.subperm_of_subset hnodup hsub).length_le

/-- A directory that is not well-formed is refused. -/
theorem refused_read (hcount : d.fields.length < 2 ^ 32)
    (hlegible : ∀ s ∈ d.fields, ∃ info, s.Legible infos info) (hnot : ¬ d.WellFormed) :
    ∃ cause, Fails (read infos) (Item.encodeAll d.items) (.corrupt cause) := by
  rw [items, Item.encodeAll_append, Item.encodeAll_cons, List.append_assoc, read]
  by_cases hmany : infos.length < d.fields.length
  · refine ⟨.tooManyFields d.fields.length infos.length, (takes_nat32 hcount).bind_fails ?_⟩
    rw [if_pos hmany]
    exact fails_corrupt _ _
  · obtain ⟨cause, hfails⟩ := refused_readFields d.fields none hlegible
      fun h => hnot ((inOrder_none_iff d).mp h)
    refine ⟨cause, (takes_nat32 hcount).bind_fails ?_⟩
    rw [if_neg hmany]
    exact hfails.bind _ _

/-- **A reader accepts exactly the well-formed directories**, and restores them. The fields have
different numbers, each summary is of one of them and has a sum of frequencies just if the field has
frequencies, and no length needs more than 32 bits. -/
theorem accepts_iff (hinfos : infos.Pairwise (·.number ≠ ·.number))
    (hdescribed : ∀ s ∈ d.fields, ∃ info ∈ infos, info.number = s.number ∧
      s.sumTotalFreq.isSome = info.options.hasFreqs)
    (hcount : d.fields.length < 2 ^ 32)
    (hlengths : ∀ s ∈ d.fields, s.rootCode.length < 2 ^ 32 ∧ s.minTerm.length < 2 ^ 32 ∧
      s.maxTerm.length < 2 ^ 32)
    (position : Nat) (trailing : Bytes) :
    (read infos ⟨position, Item.encodeAll d.items ++ trailing⟩
        = .ok d ⟨position + (Item.encodeAll d.items).length, trailing⟩ ↔ d.WellFormed) ∧
      (¬ d.WellFormed → ∃ cause stop,
        read infos ⟨position, Item.encodeAll d.items ++ trailing⟩
          = .error (.corrupt cause) stop) := by
  have hlegible : ∀ s ∈ d.fields, ∃ info, s.Legible infos info := by
    intro s hs
    obtain ⟨info, hinfo, hnumber, hfreqs⟩ := hdescribed s hs
    obtain ⟨hroot, hmin, hmax⟩ := hlengths s hs
    exact ⟨info, hnumber ▸ hinfos.find?_eq hinfo, hfreqs, hroot, hmin, hmax⟩
  have hrefused : ¬ d.WellFormed → ∃ cause stop,
      read infos ⟨position, Item.encodeAll d.items ++ trailing⟩
        = .error (.corrupt cause) stop := by
    intro hnot
    obtain ⟨cause, hfails⟩ := refused_read hcount hlegible hnot
    exact ⟨cause, hfails position trailing⟩
  refine ⟨⟨fun hread => ?_, fun h => ?_⟩, hrefused⟩
  · by_contra hnot
    obtain ⟨cause, stop, herror⟩ := hrefused hnot
    rw [hread] at herror
    cases herror
  · have hle := h.length_le fun s hs => (hdescribed s hs).imp fun _ hinfo => ⟨hinfo.1, hinfo.2.1⟩
    refine takes_read hcount hle (fun s hs => ?_) h.1 position trailing
    obtain ⟨info, hs'⟩ := hlegible s hs
    exact hs'.listed ((s.check_eq_ok_iff info.name).mpr (h.2 s hs))

/-- Three fields, of which the first has no frequencies. -/
def shelf : List FieldInfo := [⟨"id", 0, .docs⟩, ⟨"body", 3, .freqs⟩, ⟨"note", 7, .offsets⟩]

/-- A field without frequencies, one with them, and one without terms. -/
def shelved : Directory where
  fields := [
    { number := 0, terms := 3, rootCode := [10], sumDocFreq := 3, docCount := 3, minTerm := [97]
      maxTerm := [99], indexStart := 30 },
    { number := 3, terms := 2, rootCode := [200, 1], sumTotalFreq := some 9, sumDocFreq := 5
      docCount := 4, maxTerm := [98], indexStart := 55 },
    .empty 7 true 80]
  indexEnd := 300
  termsEnd := 2000

theorem accepts_iff_shelved :
    shelf.Pairwise (·.number ≠ ·.number) ∧ shelved.WellFormed ∧
      read shelf ⟨0, Item.encodeAll shelved.items ++ [255]⟩
        = .ok shelved ⟨(Item.encodeAll shelved.items).length, [255]⟩ ∧
      ∃ cause stop, read shelf
        ⟨0, Item.encodeAll { shelved with fields := shelved.fields.reverse }.items ++ [255]⟩
          = .error (.corrupt cause) stop := by
  have hshelf : shelf.Pairwise (·.number ≠ ·.number) := by decide
  have hformed : shelved.WellFormed := by decide
  have haccepted := accepts_iff (d := shelved) hshelf (by decide) (by decide) (by decide) 0 [255]
  have hreversed := accepts_iff (d := { shelved with fields := shelved.fields.reverse }) hshelf
    (by decide) (by decide) (by decide) 0 [255]
  refine ⟨hshelf, hformed, ?_, hreversed.2 (by decide)⟩
  rw [haccepted.1.mpr hformed, Nat.zero_add]

end Directory

end Lexicon

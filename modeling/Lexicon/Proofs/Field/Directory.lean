import Lexicon.Field.Directory
import Lexicon.Proofs.Reading

/-!
# The directory is read back

`FieldSummary.Listed infos s` says what a summary needs to be in a directory: its field is known,
its numbers agree, and its byte strings are no longer than the format can hold.

> **`Directory.takes_read`** — a directory of such summaries is read back;
> **`Directory.fails_read`** — and one with a summary whose numbers do not agree is refused.
-/

namespace Lexicon

open Read

namespace FieldSummary

/-- What a reader asks of a stored summary. -/
structure Listed (infos : List FieldInfo) (s : FieldSummary) : Prop where
  known : ∃ info, infos.find? (·.number = s.number) = some info ∧
    s.sumTotalFreq.isSome = info.options.hasFreqs ∧ s.check info.name = .ok ()
  rootCode_lt : s.rootCode.length < 2 ^ 32
  minTerm_lt : s.minTerm.length < 2 ^ 32
  maxTerm_lt : s.maxTerm.length < 2 ^ 32

/-- What a reader asks of a stored summary to read it, whether its numbers agree or not. -/
structure Legible (infos : List FieldInfo) (info : FieldInfo) (s : FieldSummary) : Prop where
  known : infos.find? (·.number = s.number) = some info
  freqs : s.sumTotalFreq.isSome = info.options.hasFreqs
  rootCode_lt : s.rootCode.length < 2 ^ 32
  minTerm_lt : s.minTerm.length < 2 ^ 32
  maxTerm_lt : s.maxTerm.length < 2 ^ 32

theorem Legible.listed {infos : List FieldInfo} {info : FieldInfo} {s : FieldSummary}
    (h : s.Legible infos info) (hcheck : s.check info.name = .ok ()) : s.Listed infos :=
  ⟨⟨info, h.known, h.freqs, hcheck⟩, h.rootCode_lt, h.minTerm_lt, h.maxTerm_lt⟩

/-- The frequencies, which only some fields have. -/
theorem takes_sumTotalFreq (sum : Option UInt64) :
    Takes (if sum.isSome then some <$> vlong else pure none)
      (Item.encodeAll (sum.toList.map .vlong)) (sum.map (·.toNat)) := by
  cases sum with
  | none => exact takes_pure none
  | some n =>
    rw [Option.toList_some, List.map_singleton, Item.encodeAll_singleton]
    exact (takes_vlong_item n).map some

/-- **A summary is read**, and checked then. -/
theorem leads_read {infos : List FieldInfo} {info : FieldInfo} {s : FieldSummary}
    (h : s.Legible infos info) : Leads (read infos) (Item.encodeAll s.items)
      (match s.check info.name with
        | .ok () => pure s
        | .error e => throw e) := by
  have hsum := takes_sumTotalFreq s.sumTotalFreq
  rw [h.freqs] at hsum
  rw [items, Item.encodeAll_append, Item.encodeAll_append, List.append_assoc]
  simp only [Item.encodeAll_cons, Item.encodeAll_nil, List.append_nil, List.append_assoc]
  rw [read]
  refine (takes_vint_item s.number).bind_leads ?_
  simp only [UInt32.ofNat_toNat, h.known]
  refine (takes_vlong_item s.terms).bind_leads ((takes_block_item h.rootCode_lt).bind_leads ?_)
  -- what follows the frequencies stands in both branches, and has to come behind them
  have hjoin : ∀ g : Option Nat → Read FieldSummary,
      (if info.options.hasFreqs then some <$> vlong >>= g else pure none >>= g)
        = (if info.options.hasFreqs then some <$> vlong else pure none) >>= g := by
    intro g
    split <;> rfl
  rw [hjoin]
  refine hsum.bind_leads ((takes_vlong_item s.sumDocFreq).bind_leads
    ((takes_vint_item s.docCount).bind_leads ((takes_block_item h.minTerm_lt).bind_leads
      ((takes_block_item h.maxTerm_lt).bind_leads ?_))))
  have hsame : (s.sumTotalFreq.map (·.toNat)).map UInt64.ofNat = s.sumTotalFreq := by
    cases s.sumTotalFreq with
    | none => rfl
    | some n => simp
  have hlast := (takes_vlong_item s.indexStart).step fun indexStart =>
    (match ({ s with indexStart := .ofNat indexStart } : FieldSummary).check info.name with
      | .ok () => pure { s with indexStart := .ofNat indexStart }
      | .error e => throw e : Read FieldSummary)
  simp only [UInt64.ofNat_toNat] at hlast
  simp only [UInt64.ofNat_toNat, UInt32.ofNat_toNat, hsame]
  exact hlast

/-- **A summary is read back.** -/
theorem takes_read {infos : List FieldInfo} {s : FieldSummary} (h : s.Listed infos) :
    Takes (read infos) (Item.encodeAll s.items) s := by
  obtain ⟨info, hfind, hfreqs, hcheck⟩ := h.known
  have hread := leads_read ⟨hfind, hfreqs, h.rootCode_lt, h.minTerm_lt, h.maxTerm_lt⟩
  rw [hcheck] at hread
  exact hread.takes

end FieldSummary

namespace Directory

/-- A number that is above the one before is in order. -/
theorem not_passed {number : UInt32} {previous : Option UInt32}
    (h : ∀ p, previous = some p → p < number) : previous.filter (number ≤ ·) = none := by
  cases hp : previous with
  | none => rfl
  | some p => rw [Option.filter_some, if_neg (by simpa using h p hp)]

theorem takes_readFields {infos : List FieldInfo} (fields : List FieldSummary) :
    ∀ previous : Option UInt32, (∀ s ∈ fields, s.Listed infos) →
      (∀ p, previous = some p → ∀ s ∈ fields, p < s.number) →
      fields.Pairwise (·.number < ·.number) →
      Takes (readFields infos previous fields.length)
        (Item.encodeAll (fields.flatMap FieldSummary.items)) fields := by
  induction fields with
  | nil => intro previous _ _ _; exact takes_pure []
  | cons s fields ih =>
    intro previous hlisted hprevious hnumbers
    obtain ⟨hfirst, hnumbers⟩ := List.pairwise_cons.mp hnumbers
    have hothers := ih (some s.number) (fun x hx => hlisted x (List.mem_cons_of_mem _ hx))
      (fun p hp x hx => Option.some.inj hp ▸ hfirst x hx) hnumbers
    rw [List.flatMap_cons, Item.encodeAll_append, List.length_cons, readFields]
    refine (FieldSummary.takes_read (hlisted s (List.mem_cons_self ..))).bind ?_
    simp only [not_passed fun p hp => hprevious p hp s (List.mem_cons_self ..)]
    exact hothers.bind_pure

/-- Reading the summaries fails at the first that is refused, whatever comes after it. -/
theorem fails_readFields {infos : List FieldInfo} {info : FieldInfo} {s : FieldSummary} {e : Error}
    (hs : s.Legible infos info) (hcheck : s.check info.name = .error e) (rest : List FieldSummary)
    (front : List FieldSummary) :
    ∀ previous : Option UInt32, (∀ x ∈ front, x.Listed infos) →
      (∀ p, previous = some p → ∀ x ∈ front, p < x.number) →
      front.Pairwise (·.number < ·.number) →
      Fails (readFields infos previous (front ++ s :: rest).length)
        (Item.encodeAll ((front ++ s :: rest).flatMap FieldSummary.items)) e := by
  induction front with
  | nil =>
    intro previous _ _ _
    have hread := FieldSummary.leads_read hs
    rw [hcheck] at hread
    rw [List.nil_append, List.flatMap_cons, Item.encodeAll_append, List.length_cons, readFields]
    exact hread.fails.bind _ _
  | cons x front ih =>
    intro previous hlisted hprevious hnumbers
    obtain ⟨hfirst, hnumbers⟩ := List.pairwise_cons.mp hnumbers
    have hothers := ih (some x.number) (fun y hy => hlisted y (List.mem_cons_of_mem _ hy))
      (fun p hp y hy => Option.some.inj hp ▸ hfirst y hy) hnumbers
    rw [List.cons_append, List.flatMap_cons, Item.encodeAll_append, List.length_cons, readFields]
    refine (FieldSummary.takes_read (hlisted x (List.mem_cons_self ..))).bind_fails ?_
    simp only [not_passed fun p hp => hprevious p hp x (List.mem_cons_self ..)]
    exact hothers.bind_pure

/-- **A directory is read back.** -/
theorem takes_read {infos : List FieldInfo} {d : Directory} (hcount : d.fields.length < 2 ^ 32)
    (hle : d.fields.length ≤ infos.length) (hlisted : ∀ s ∈ d.fields, s.Listed infos)
    (hnumbers : d.fields.Pairwise (·.number < ·.number)) :
    Takes (read infos) (Item.encodeAll d.items) d := by
  rw [items, Item.encodeAll_append, Item.encodeAll_cons, Item.encodeAll_cons,
    Item.encodeAll_singleton, List.append_assoc, read]
  refine (takes_nat32 hcount).bind ?_
  rw [if_neg (by omega)]
  have hfields := takes_readFields d.fields none hlisted (by simp) hnumbers
  refine hfields.bind
    ((takes_vlong_item d.indexEnd).bind ((takes_vlong_item d.termsEnd).bind_last ?_))
  simp only [UInt64.ofNat_toNat]
  exact takes_pure d

/-- **A directory is refused** for the first summary whose numbers do not agree. -/
theorem fails_read {infos : List FieldInfo} {info : FieldInfo} {d : Directory}
    {front rest : List FieldSummary} {s : FieldSummary} {e : Error}
    (hfields : d.fields = front ++ s :: rest) (hcount : d.fields.length < 2 ^ 32)
    (hle : d.fields.length ≤ infos.length) (hlisted : ∀ x ∈ front, x.Listed infos)
    (hs : s.Legible infos info) (hcheck : s.check info.name = .error e)
    (hnumbers : d.fields.Pairwise (·.number < ·.number)) :
    Fails (read infos) (Item.encodeAll d.items) e := by
  have hfront : front.Pairwise (·.number < ·.number) := by
    rw [hfields] at hnumbers
    exact (List.pairwise_append.mp hnumbers).1
  have hread := fails_readFields hs hcheck rest front none hlisted (by simp) hfront
  rw [← hfields] at hread
  rw [items, Item.encodeAll_append, Item.encodeAll_cons, List.append_assoc, read]
  refine (takes_nat32 hcount).bind_fails ?_
  rw [if_neg (by omega)]
  exact hread.bind _ _

end Directory

end Lexicon

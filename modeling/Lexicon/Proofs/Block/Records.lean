import Lexicon.Proofs.Block.Stats
import Mathlib.Data.List.Chain

/-!
# The records of statistics

The writer counts single terms until another term comes, so its state is a number that is in no
record yet. The records can also be told without it: the terms are put into groups from the last to
the first, a single term joining a group of single ones (`join`), and each group has one record
(`items_eq_grouped`). The groups are the longest there are (`Grouped`).

> **`nexts_encode`** — the reader gives every term back, one a call, and its end is seen after the
> last; the bytes are one record for each group.
-/

namespace Lexicon.BlockStats

open Read

namespace Reader

/-- A reader in front of a term is not exhausted, because that term can be read. -/
theorem exhausted_of_before_cons {r : Reader} {hasFreqs : Bool} {s : TermStats}
    {row : List TermStats} (h : r.Before hasFreqs (s :: row)) : r.exhausted = false := by
  obtain ⟨r', hnext, -⟩ := next_spec h
  obtain ⟨⟨position, bytes⟩, hasFreqs', singles⟩ := r
  by_contra hexhausted
  simp only [exhausted, Cursor.atEnd, Bool.not_eq_false, Bool.and_eq_true, beq_iff_eq,
    List.isEmpty_iff] at hexhausted
  obtain ⟨rfl, rfl⟩ := hexhausted
  cases hnext

/-- The statistics of the next terms, one call for each. -/
def nexts : Nat → EStateM Error Reader (List TermStats)
  | 0 => pure []
  | count + 1 => do
    let s ← next
    return s :: (← nexts count)

/-- **The next terms are the first of those in front of the reader.** -/
theorem nexts_spec {hasFreqs : Bool} (count : Nat) :
    ∀ {r : Reader} {row : List TermStats}, r.Before hasFreqs row → count ≤ row.length →
      ∃ r', nexts count r = .ok ((row.take count).map (kept hasFreqs)) r' ∧
        r'.Before hasFreqs (row.drop count) := by
  induction count with
  | zero => intro r row h _; exact ⟨r, rfl, h⟩
  | succ count ih =>
    intro r row h hcount
    cases row with
    | nil => simp at hcount
    | cons s row =>
      obtain ⟨r', hnext, hbefore⟩ := next_spec h
      obtain ⟨r'', hnexts, hafter⟩ := ih hbefore (by simpa using hcount)
      refine ⟨r'', ?_, hafter⟩
      rw [nexts, bind_ok hnext, bind_ok hnexts]
      rfl

/-- A reader is exhausted just if no terms are left. -/
theorem exhausted_of_before {r : Reader} {hasFreqs : Bool} {row : List TermStats}
    (h : r.Before hasFreqs row) : r.exhausted = row.isEmpty := by
  cases row with
  | nil => exact exhausted_of_before_nil h
  | cons s row => exact exhausted_of_before_cons h

end Reader

/-! ## What the records stand for -/

/-- Puts a term in front of terms that are grouped by their records: a single term goes to the
single ones that follow it. -/
def join (hasFreqs : Bool) (s : TermStats) : List (List TermStats) → List (List TermStats)
  | [] => [[s]]
  | group :: rest =>
    if single hasFreqs s && group.all (single hasFreqs) then (s :: group) :: rest
    else [s] :: group :: rest

/-- The terms of a row grouped by their records. -/
def groups (hasFreqs : Bool) (row : List TermStats) : List (List TermStats) :=
  row.foldr (join hasFreqs) []

/-- The one record of a group: the number of its single terms, or all that is known of its term. -/
def groupItems (hasFreqs : Bool) (group : List TermStats) : List Item :=
  if group.all (single hasFreqs) then runItems group.length
  else group.flatMap (termItems hasFreqs)

/-- A row is cut into its longest runs of single terms and the other terms one by one. -/
structure Grouped (hasFreqs : Bool) (row : List TermStats) (parts : List (List TermStats)) :
    Prop where
  flatten : parts.flatten = row
  alike : ∀ part ∈ parts, (part ≠ [] ∧ ∀ s ∈ part, single hasFreqs s = true) ∨
    ∃ s, part = [s] ∧ single hasFreqs s = false
  longest : parts.IsChain fun part next =>
    ¬ ((∀ s ∈ part, single hasFreqs s = true) ∧ ∀ s ∈ next, single hasFreqs s = true)

variable {hasFreqs : Bool}

/-- Groups stay maximal with one more term in front. -/
theorem Grouped.join {row : List TermStats} {parts : List (List TermStats)}
    (h : Grouped hasFreqs row parts) (s : TermStats) :
    Grouped hasFreqs (s :: row) (join hasFreqs s parts) := by
  have halone : ([s] ≠ [] ∧ ∀ x ∈ [s], single hasFreqs x = true) ∨
      ∃ x, [s] = [x] ∧ single hasFreqs x = false := by
    cases hs : single hasFreqs s with
    | true => exact .inl ⟨List.cons_ne_nil _ _, by simpa using hs⟩
    | false => exact .inr ⟨s, rfl, hs⟩
  cases parts with
  | nil =>
    obtain rfl : [] = row := h.flatten
    exact ⟨rfl, List.forall_mem_singleton.mpr halone, .singleton _⟩
  | cons group rest =>
    obtain ⟨hgroup, hrest⟩ := List.forall_mem_cons.mp h.alike
    rw [BlockStats.join]
    split
    next hjoined =>
      -- the term begins the run that stood first
      obtain ⟨hs, hall⟩ := Bool.and_eq_true_iff.mp hjoined
      have hsingle : ∀ x ∈ s :: group, single hasFreqs x = true :=
        List.forall_mem_cons.mpr ⟨hs, List.all_eq_true.mp hall⟩
      refine ⟨by rw [List.flatten_cons, List.cons_append, ← List.flatten_cons, h.flatten],
        List.forall_mem_cons.mpr ⟨.inl ⟨List.cons_ne_nil _ _, hsingle⟩, hrest⟩, ?_⟩
      exact h.longest.imp_head fun {_} hlongest hboth =>
        hlongest ⟨fun x hx => hboth.1 x (List.mem_cons_of_mem _ hx), hboth.2⟩
    next hapart =>
      -- the term or the first of those that follow is not single
      refine ⟨by rw [List.flatten_cons, h.flatten]; rfl,
        List.forall_mem_cons.mpr ⟨halone, h.alike⟩, .cons_cons (fun hboth => hapart ?_) h.longest⟩
      exact Bool.and_eq_true_iff.mpr
        ⟨hboth.1 s (List.mem_singleton.mpr rfl), List.all_eq_true.mpr hboth.2⟩

/-- The groups of a row are maximal. -/
theorem grouped_groups (row : List TermStats) : Grouped hasFreqs row (groups hasFreqs row) := by
  induction row with
  | nil => exact ⟨rfl, by simp [groups], .nil⟩
  | cons s row ih => exact ih.join s

/-- The records of groups that so many single terms come before. -/
def groupedItems (hasFreqs : Bool) (count : Nat) : List (List TermStats) → List Item
  | [] => runItems count
  | group :: rest =>
    if group.all (single hasFreqs) then
      runItems (count + group.length) ++ rest.flatMap (groupItems hasFreqs)
    else runItems count ++ (group :: rest).flatMap (groupItems hasFreqs)

theorem groupedItems_zero (parts : List (List TermStats)) :
    groupedItems hasFreqs 0 parts = parts.flatMap (groupItems hasFreqs) := by
  cases parts with
  | nil => rfl
  | cons group rest =>
    rw [groupedItems, List.flatMap_cons, groupItems]
    split <;> simp [runItems]

/-- A single term is counted, whether it begins a group or joins one. -/
theorem groupedItems_join {s : TermStats} (hs : single hasFreqs s = true) (count : Nat)
    (parts : List (List TermStats)) :
    groupedItems hasFreqs count (join hasFreqs s parts)
      = groupedItems hasFreqs (count + 1) parts := by
  cases parts with
  | nil => simp [join, groupedItems, hs]
  | cons group rest =>
    by_cases hall : group.all (single hasFreqs) = true
    · rw [join, if_pos (by simp [hs, hall]), groupedItems, groupedItems, if_pos hall,
        if_pos (by simp [hs, hall]), List.length_cons, Nat.add_right_comm, Nat.add_assoc]
    · rw [join, if_neg (by simp [hs, hall]), groupedItems, groupedItems, if_neg hall,
        if_pos (by simp [hs])]
      rfl

/-- Any other term is alone. -/
theorem join_of_not_single {s : TermStats} (hs : single hasFreqs s = false)
    (parts : List (List TermStats)) : join hasFreqs s parts = [s] :: parts := by
  cases parts with
  | nil => rfl
  | cons group rest => rw [join, if_neg (by simp [hs])]

/-- **Each group has one record.** -/
theorem items_eq_grouped (row : List TermStats) :
    ∀ count, items hasFreqs count row = groupedItems hasFreqs count (groups hasFreqs row) := by
  induction row with
  | nil => intro count; rfl
  | cons s row ih =>
    intro count
    have hgroups : groups hasFreqs (s :: row) = join hasFreqs s (groups hasFreqs row) := rfl
    rw [hgroups, items]
    cases hs : single hasFreqs s with
    | true => rw [if_pos rfl, ih, groupedItems_join hs]
    | false =>
      rw [if_neg (by simp), join_of_not_single hs, groupedItems, if_neg (by simp [hs]), ih,
        groupedItems_zero, List.flatMap_cons, groupItems, if_neg (by simp [hs])]
      simp

/-- A row is written group by group. -/
theorem encode_eq_groups (row : List TermStats) :
    encode hasFreqs row
      = (groups hasFreqs row).flatMap fun part => Item.encodeAll (groupItems hasFreqs part) := by
  rw [encode, items_eq_grouped, groupedItems_zero, Item.encodeAll, List.flatMap_assoc]
  rfl

/-- **Statistics are read back one term at a time**, the reader being exhausted after the last and
not before. The bytes have one record for each longest run of single terms and one for each other
term, in their order. -/
theorem nexts_encode {row : List TermStats} (hlength : row.length < 2 ^ 31)
    (hrow : ∀ s ∈ row, Recordable hasFreqs s) :
    (∀ count ≤ row.length, ∃ r,
      Reader.nexts count { input := .start (encode hasFreqs row), hasFreqs }
        = .ok ((row.take count).map (kept hasFreqs)) r ∧
      r.exhausted = decide (count = row.length)) ∧
    Grouped hasFreqs row (groups hasFreqs row) ∧
    encode hasFreqs row
      = (groups hasFreqs row).flatMap fun part => Item.encodeAll (groupItems hasFreqs part) := by
  refine ⟨fun count hcount => ?_, grouped_groups row, encode_eq_groups row⟩
  obtain ⟨r, hnexts, hbefore⟩ := Reader.nexts_spec count (Reader.before_start hlength hrow) hcount
  refine ⟨r, hnexts, ?_⟩
  rw [Reader.exhausted_of_before hbefore, Bool.eq_iff_iff, List.isEmpty_iff, List.drop_eq_nil_iff,
    decide_eq_true_iff]
  omega

/-- Two runs of single terms, with two other terms between them; one of these is in one document
only. -/
def mixedStats : List TermStats := [⟨1, 1⟩, ⟨1, 1⟩, ⟨3, 7⟩, ⟨1, 2⟩, ⟨1, 1⟩]

theorem nexts_encode_mixed :
    mixedStats.length < 2 ^ 31 ∧ (∀ s ∈ mixedStats, Recordable true s) ∧
      groups true mixedStats = [[⟨1, 1⟩, ⟨1, 1⟩], [⟨3, 7⟩], [⟨1, 2⟩], [⟨1, 1⟩]] ∧
      ∃ r, Reader.nexts 5 { input := .start (encode true mixedStats), hasFreqs := true }
        = .ok mixedStats r ∧ r.exhausted = true := by
  have hlength : mixedStats.length < 2 ^ 31 := by decide
  have hrow : ∀ s ∈ mixedStats, Recordable true s := by simp [mixedStats, Recordable]
  obtain ⟨r, hnexts, hexhausted⟩ := (nexts_encode hlength hrow).1 5 (by decide)
  exact ⟨hlength, hrow, by decide, r, hnexts, hexhausted⟩

end Lexicon.BlockStats

import Lexicon.SortedMap
import Mathlib.Logic.Basic

/-!
# What is in a sorted map

A key is in a sorted map once, with the value that is found under it (`get?_eq_some_iff`). A map to
which a row of updates was applied has under each key what the updates of that key came to, in their
order (`get?_foldl_upsert`).
-/

namespace Lexicon

/-- Values that are each made of the one before, from nothing on. -/
theorem foldl_some_getD {α β : Type} (g : β → α → β) (start : β) {xs : List α} (hne : xs ≠ []) :
    xs.foldl (fun before x => some (g (before.getD start) x)) none = some (xs.foldl g start) := by
  have hsome : ∀ (xs : List α) (b : β),
      xs.foldl (fun before x => some (g (before.getD start) x)) (some b) = some (xs.foldl g b) := by
    intro xs
    induction xs with
    | nil => exact fun b => rfl
    | cons x xs ih => exact fun b => ih (g b x)
  cases xs with
  | nil => exact absurd rfl hne
  | cons x xs => exact hsome xs (g start x)

namespace SortedMap

variable {κ ν α : Type} [LT κ] {m : SortedMap κ ν} {key : κ} {value : ν}

theorem sorted_keys (m : SortedMap κ ν) : m.keys.Pairwise (· < ·) := List.pairwise_map.mpr m.sorted

variable [DecidableEq κ]

/-- The value of a key is looked up with whatever equality there is. -/
theorem get?_eq_lookup [inst : BEq κ] [LawfulBEq κ] (m : SortedMap κ ν) (key : κ) :
    m.get? key = @List.lookup κ ν inst key m.toList := by
  rw [get?]
  congr 1
  exact lawful_beq_subsingleton ..

variable [LE κ] [Std.IsLinearOrder κ] [Std.LawfulOrderLT κ]

theorem lookup_eq_some_iff {l : List (κ × ν)} (h : l.Pairwise (·.1 < ·.1)) :
    l.lookup key = some value ↔ (key, value) ∈ l := by
  induction l with
  | nil => simp
  | cons p l ih =>
    obtain ⟨hfirst, hrest⟩ := List.pairwise_cons.mp h
    obtain ⟨k, v⟩ := p
    rw [lookup_pair_cons, List.mem_cons, ← ih hrest]
    by_cases hkey : key = k
    · subst hkey
      have hnone : l.lookup key = none := lookup_eq_none_of_lt hfirst
      rw [if_pos rfl, hnone]
      simp [eq_comm]
    · rw [if_neg hkey]
      simp [hkey]

/-- A key has the value that it stands with. -/
theorem get?_eq_some_iff : m.get? key = some value ↔ (key, value) ∈ m.toList :=
  lookup_eq_some_iff m.sorted

theorem mem_keys_iff : key ∈ m.keys ↔ ∃ value, m.get? key = some value := by
  rw [keys, List.mem_map]
  constructor
  · rintro ⟨⟨k, v⟩, hmem, rfl⟩
    exact ⟨v, get?_eq_some_iff.mpr hmem⟩
  · rintro ⟨v, hget⟩
    exact ⟨(key, v), get?_eq_some_iff.mp hget, rfl⟩

theorem mem_values_iff : value ∈ m.values ↔ ∃ key, m.get? key = some value := by
  rw [values, List.mem_map]
  constructor
  · rintro ⟨⟨k, v⟩, hmem, rfl⟩
    exact ⟨k, get?_eq_some_iff.mpr hmem⟩
  · rintro ⟨k, hget⟩
    exact ⟨(k, value), get?_eq_some_iff.mp hget, rfl⟩

/-- **A row of updates comes to what each key's own come to.** -/
theorem get?_foldl_upsert [DecidableLT κ] (keyOf : α → κ) (f : α → Option ν → ν) (xs : List α)
    (m : SortedMap κ ν) (key : κ) :
    (xs.foldl (fun m x => m.upsert (keyOf x) (f x)) m).get? key
      = (xs.filter (keyOf · = key)).foldl (fun before x => some (f x before)) (m.get? key) := by
  induction xs generalizing m with
  | nil => rfl
  | cons x xs ih =>
    rw [List.foldl_cons, ih, get?_upsert]
    by_cases hkey : keyOf x = key
    · rw [if_pos hkey.symm, List.filter_cons_of_pos (by simpa using hkey), List.foldl_cons, hkey]
    · rw [if_neg fun h => hkey h.symm, List.filter_cons_of_neg (by simpa using hkey)]

theorem put_congr [DecidableLT κ] {f g : Option ν → ν} {l : List (κ × ν)}
    (hl : l.Pairwise (·.1 < ·.1)) (h : f (l.lookup key) = g (l.lookup key)) :
    put key f l = put key g l := by
  induction l with
  | nil => exact congrArg (fun v => [(key, v)]) h
  | cons p l ih =>
    obtain ⟨k, v⟩ := p
    obtain ⟨hfirst, hrest⟩ := List.pairwise_cons.mp hl
    rw [lookup_pair_cons] at h
    unfold put
    by_cases hlt : key < k
    · have hne : key ≠ k := by grind
      have hnone : l.lookup key = none :=
        lookup_eq_none_of_lt fun p hp => Std.lt_trans hlt (hfirst p hp)
      rw [if_neg hne, hnone] at h
      rw [if_pos hlt, if_pos hlt, h]
    · by_cases hkey : key = k
      · rw [if_pos hkey] at h
        rw [if_neg hlt, if_neg hlt, if_pos hkey, if_pos hkey, h]
      · rw [if_neg hkey] at h
        rw [if_neg hlt, if_neg hlt, if_neg hkey, if_neg hkey, ih hrest h]

/-- An update is what it makes of the value before. -/
theorem upsert_congr [DecidableLT κ] {f g : Option ν → ν} (h : f (m.get? key) = g (m.get? key)) :
    m.upsert key f = m.upsert key g := by
  unfold upsert
  congr 1
  exact put_congr m.sorted h

end SortedMap

end Lexicon

/-!
# Sorted maps

A finite map kept as the list of its pairs in increasing order of the keys. Its one update gives a
key a value that may depend on the value before; `get?_upsert` says that it changes nothing else.
-/

namespace Lexicon

/-- Pairs in increasing order of their keys. -/
structure SortedMap (κ ν : Type) [LT κ] where
  toList : List (κ × ν)
  sorted : toList.Pairwise (·.1 < ·.1)

namespace SortedMap

variable {κ ν : Type} [LT κ]

instance : EmptyCollection (SortedMap κ ν) := ⟨⟨[], .nil⟩⟩

def keys (m : SortedMap κ ν) : List κ := m.toList.map Prod.fst

def values (m : SortedMap κ ν) : List ν := m.toList.map Prod.snd

def size (m : SortedMap κ ν) : Nat := m.toList.length

/-- The value of a key. -/
def get? [DecidableEq κ] (m : SortedMap κ ν) (key : κ) : Option ν := m.toList.lookup key

theorem lookup_pair_cons {κ : Type} [DecidableEq κ] {key k : κ} {v : ν} {l : List (κ × ν)} :
    ((k, v) :: l).lookup key = if key = k then some v else l.lookup key := by
  by_cases h : key = k
  · simp [h]
  · rw [List.lookup_cons, beq_eq_false_iff_ne.2 h, if_neg h]

theorem lookup_eq_none_of_lt [DecidableEq κ] [LE κ] [Std.IsLinearOrder κ] [Std.LawfulOrderLT κ]
    {key : κ} {l : List (κ × ν)} (h : ∀ p ∈ l, key < p.1) : l.lookup key = none := by
  induction l with
  | nil => rfl
  | cons q rest ih =>
    obtain ⟨k, v⟩ := q
    have hne : key ≠ k := by
      intro he
      have := h (k, v) (by simp)
      grind
    rw [lookup_pair_cons, if_neg hne]
    exact ih fun p hp => h p (by simp [hp])

variable [DecidableLT κ] [DecidableEq κ]

/-- Gives a key a value in a sorted list of pairs. -/
def put (key : κ) (f : Option ν → ν) : List (κ × ν) → List (κ × ν)
  | [] => [(key, f none)]
  | (k, v) :: rest =>
    if key < k then (key, f none) :: (k, v) :: rest
    else if key = k then (key, f (some v)) :: rest
    else (k, v) :: put key f rest

theorem mem_put {key : κ} {f : Option ν → ν} {l : List (κ × ν)} {p : κ × ν}
    (h : p ∈ put key f l) : p.1 = key ∨ p ∈ l := by
  induction l with
  | nil => simp_all [put]
  | cons q rest ih => grind [put]

variable [LE κ] [Std.IsLinearOrder κ] [Std.LawfulOrderLT κ]

theorem sorted_put {key : κ} {f : Option ν → ν} {l : List (κ × ν)}
    (h : l.Pairwise (·.1 < ·.1)) : (put key f l).Pairwise (·.1 < ·.1) := by
  induction l with
  | nil => simp [put]
  | cons q rest ih =>
    obtain ⟨k, v⟩ := q
    rw [List.pairwise_cons] at h
    rw [put]
    split
    · rename_i hlt
      refine .cons ?_ (.cons h.1 h.2)
      intro p hp
      rcases List.mem_cons.1 hp with rfl | hp
      · exact hlt
      · exact Std.lt_trans hlt (h.1 p hp)
    · split
      · rename_i _ heq
        subst heq
        exact .cons h.1 h.2
      · rename_i hlt hne
        refine .cons ?_ (ih h.2)
        intro p hp
        rcases mem_put hp with hk | hp
        · simp only [hk]
          grind
        · exact h.1 p hp

theorem lookup_put {key : κ} {f : Option ν → ν} {l : List (κ × ν)}
    (h : l.Pairwise (·.1 < ·.1)) (other : κ) :
    (put key f l).lookup other =
      if other = key then some (f (l.lookup key)) else l.lookup other := by
  induction l with
  | nil => simp [put, lookup_pair_cons]
  | cons q rest ih =>
    obtain ⟨k, v⟩ := q
    rw [List.pairwise_cons] at h
    have hnone (hlt : key < k) : rest.lookup key = none :=
      lookup_eq_none_of_lt fun p hp => Std.lt_trans hlt (h.1 p hp)
    rw [put]
    split
    · grind [lookup_pair_cons]
    · split <;> grind [lookup_pair_cons]

/-- Gives a key the value that `f` makes of the one before. -/
def upsert (m : SortedMap κ ν) (key : κ) (f : Option ν → ν) : SortedMap κ ν :=
  ⟨put key f m.toList, sorted_put m.sorted⟩

theorem get?_upsert (m : SortedMap κ ν) (key : κ) (f : Option ν → ν) (other : κ) :
    (m.upsert key f).get? other = if other = key then some (f (m.get? key)) else m.get? other :=
  lookup_put m.sorted other

end SortedMap

end Lexicon

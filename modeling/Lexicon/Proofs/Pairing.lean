import Mathlib.Algebra.GroupWithZero.Nat
import Mathlib.Data.List.Forall2

/-!
# Lists side by side

Where the elements of two lists belong to each other one by one, as `List.Forall₂` says, what is
known of one list can be told of the other.
-/

variable {α β γ : Type} {R : α → β → Prop} {S : β → γ → Prop} {T : α → γ → Prop} {as : List α}
  {bs : List β}

/-- Every element of the second list belongs to one of the first. -/
theorem List.Forall₂.exists_left (h : List.Forall₂ R as bs) {b : β} (hb : b ∈ bs) :
    ∃ a ∈ as, R a b := by
  induction h with
  | nil => simp at hb
  | @cons a b' as bs hfirst _ ih =>
    rcases List.mem_cons.mp hb with rfl | hb
    · exact ⟨a, List.mem_cons_self .., hfirst⟩
    · obtain ⟨x, hx, hr⟩ := ih hb
      exact ⟨x, List.mem_cons_of_mem _ hx, hr⟩

/-- Every element of the first list has one of the second. -/
theorem List.Forall₂.exists_right (h : List.Forall₂ R as bs) {a : α} (ha : a ∈ as) :
    ∃ b ∈ bs, R a b := h.flip.exists_left ha

/-- What makes one relation another has to do so for the elements of the lists only. -/
theorem List.Forall₂.imp_of_mem {S : α → β → Prop} (h : List.Forall₂ R as bs)
    (himp : ∀ a ∈ as, ∀ b, R a b → S a b) : List.Forall₂ S as bs := by
  induction h with
  | nil => exact .nil
  | cons hfirst _ ih =>
    obtain ⟨himp₁, himp₂⟩ := List.forall_mem_cons.mp himp
    exact .cons (himp₁ _ hfirst) (ih himp₂)

/-- What is the same of the elements, one by one, is the same of the lists. -/
theorem List.Forall₂.map_eq {f : α → γ} {g : β → γ}
    (h : List.Forall₂ (fun a b => f a = g b) as bs) : as.map f = bs.map g := by
  induction h with
  | nil => rfl
  | cons hfirst _ ih => rw [List.map_cons, List.map_cons, hfirst, ih]

/-- What is bounded one by one is bounded in all. -/
theorem List.Forall₂.sum_le {f : α → Nat} {g : β → Nat} {c : Nat}
    (h : List.Forall₂ (fun a b => g b ≤ c * f a) as bs) :
    (bs.map g).sum ≤ c * (as.map f).sum := by
  induction h with
  | nil => exact Nat.zero_le _
  | cons hfirst _ ih =>
    rw [List.map_cons, List.map_cons, List.sum_cons, List.sum_cons, Nat.mul_add]
    exact Nat.add_le_add hfirst ih

/-- Two lists beside the same one are beside it together. -/
theorem List.Forall₂.zip (h : List.Forall₂ R as bs) :
    ∀ {cs : List γ}, List.Forall₂ T as cs →
      List.Forall₂ (fun a x => R a x.1 ∧ T a x.2) as (bs.zip cs) := by
  induction h with
  | nil => intro cs _; exact .nil
  | cons hfirst _ ih =>
    intro cs h'
    cases h' with
    | cons hfirst' hrest' => exact .cons ⟨hfirst, hfirst'⟩ (ih hrest')

/-- Two relations along one list make one from the first list to the last. -/
theorem List.Forall₂.through (h : List.Forall₂ R as bs) :
    ∀ {cs : List γ}, List.Forall₂ S bs cs → (∀ a b c, R a b → S b c → T a c) →
      List.Forall₂ T as cs := by
  induction h with
  | nil => intro cs h' _; cases h'; exact .nil
  | cons hfirst _ ih =>
    intro cs h' hcomp
    cases h' with
    | cons hfirst' hrest' => exact .cons (hcomp _ _ _ hfirst hfirst') (ih hrest' hcomp)

/-- What is between the elements of two lists, one by one, makes a list between them. -/
theorem List.Forall₂.exists_between {as : List α} {cs : List γ}
    (h : List.Forall₂ (fun a c => ∃ b, R a b ∧ S b c) as cs) :
    ∃ bs, List.Forall₂ R as bs ∧ List.Forall₂ S bs cs := by
  induction h with
  | nil => exact ⟨[], .nil, .nil⟩
  | cons hfirst _ ih =>
    obtain ⟨b, hr, hs⟩ := hfirst
    obtain ⟨bs, hrs, hss⟩ := ih
    exact ⟨b :: bs, .cons hr hrs, .cons hs hss⟩

namespace Lexicon

/-- Elements that each belong to something belong to a list. -/
theorem exists_forall₂ (h : ∀ a ∈ as, ∃ b, R a b) : ∃ bs, List.Forall₂ R as bs := by
  induction as with
  | nil => exact ⟨[], .nil⟩
  | cons a as ih =>
    obtain ⟨⟨b, hb⟩, hrest⟩ := List.forall_mem_cons.mp h
    obtain ⟨bs, hbs⟩ := ih hrest
    exact ⟨b :: bs, .cons hb hbs⟩

/-- A computation that gives a value for every element gives their list. -/
theorem mapM_ok {ε : Type} {f : α → Except ε β}
    (h : List.Forall₂ (fun a b => f a = .ok b) as bs) : as.mapM f = .ok bs := by
  induction h with
  | nil => rfl
  | cons hfirst _ ih =>
    rw [List.mapM_cons, hfirst, ih]
    rfl

/-- If it gives the list, it gives a value for every element. -/
theorem forall₂_of_mapM {ε : Type} {f : α → Except ε β} (h : as.mapM f = .ok bs) :
    List.Forall₂ (fun a b => f a = .ok b) as bs := by
  induction as generalizing bs with
  | nil => cases h; exact .nil
  | cons a as ih =>
    rw [List.mapM_cons] at h
    cases hfirst : f a with
    | error e => rw [hfirst] at h; cases h
    | ok b =>
      cases hrest : as.mapM f with
      | error e => rw [hfirst, hrest] at h; cases h
      | ok rest =>
        rw [hfirst, hrest] at h
        cases h
        exact .cons hfirst (ih hrest)

end Lexicon

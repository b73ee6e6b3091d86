import Lexicon.Bytes

/-!
# Prefixes and order

What the order of byte strings has to do with prefixes. The strings that start with a given prefix
stand together (`prefix_between`), and two strings of which neither starts with the other keep their
order whatever is put behind them (`append_lt_append`).
-/

/-- One more may be put behind a sorted row if it is behind all of them. -/
theorem List.Pairwise.concat {α : Type} {R : α → α → Prop} {l : List α} {a : α}
    (h : l.Pairwise R) (hbehind : ∀ x ∈ l, R x a) : (l ++ [a]).Pairwise R := by
  refine List.pairwise_append.mpr ⟨h, List.pairwise_singleton .., fun x hx y hy => ?_⟩
  rw [List.mem_singleton.mp hy]
  exact hbehind x hx

/-- What holds of the last of a sorted row, and of what comes before one of which it holds, holds of
all. -/
theorem List.Pairwise.of_last {α : Type} {R : α → α → Prop} {P : α → Prop} {l : List α}
    (h : l.Pairwise R) (hbefore : ∀ x y, R x y → P y → P x)
    (hlast : ∀ x, l.getLast? = some x → P x) : ∀ x ∈ l, P x := by
  intro x hx
  cases hsome : l.getLast? with
  | none =>
    rw [List.getLast?_eq_none_iff.mp hsome] at hx
    cases hx
  | some last =>
    obtain ⟨front, rfl⟩ := List.getLast?_eq_some_iff.mp hsome
    rcases List.mem_append.mp hx with hx | hx
    · have hlt := (List.pairwise_append.mp h).2.2 x hx last (List.mem_singleton.mpr rfl)
      exact hbefore x last hlt (hlast last hsome)
    · rw [List.mem_singleton.mp hx]
      exact hlast last hsome

/-- By its key, each thing is found in a row that has no key twice. -/
theorem List.Pairwise.find?_eq {α κ : Type} [DecidableEq κ] {key : α → κ} {l : List α}
    (h : l.Pairwise (key · ≠ key ·)) {a : α} (ha : a ∈ l) :
    l.find? (key · = key a) = some a := by
  induction l with
  | nil => cases ha
  | cons b l ih =>
    obtain ⟨hfirst, hrest⟩ := List.pairwise_cons.mp h
    rcases List.mem_cons.mp ha with rfl | ha
    · exact List.find?_cons_of_pos (decide_eq_true rfl)
    · rw [List.find?_cons_of_neg (by simpa using hfirst a ha)]
      exact ih hrest ha

namespace Lexicon.Bytes

theorem ne_of_lt {a b : Bytes} (h : a < b) : a ≠ b := fun heq => List.lt_irrefl b (heq ▸ h)

theorem lt_append {a b : Bytes} (h : b ≠ []) : a < a ++ b := by
  induction a with
  | nil =>
    obtain ⟨x, xs, rfl⟩ := List.exists_cons_of_ne_nil h
    exact List.nil_lt_cons x xs
  | cons x xs ih =>
    rw [List.cons_append, List.cons_lt_cons_iff]
    exact .inr ⟨rfl, ih⟩

/-- A string comes before its extensions. -/
theorem lt_of_extends {a b : Bytes} (h : a <+: b) (hne : a ≠ b) : a < b := by
  obtain ⟨more, rfl⟩ := h
  refine lt_append ?_
  rintro rfl
  exact hne (List.append_nil a).symm

/-- A string is not before one that it extends. -/
theorem not_lt_of_extends {a b : Bytes} (h : a <+: b) : ¬ b < a := by
  intro hlt
  by_cases heq : a = b
  · exact List.lt_irrefl b (heq ▸ hlt)
  · exact List.lt_asymm (lt_of_extends h heq) hlt

theorem lt_of_lt_of_extends {a b c : Bytes} (h : a < b) (h' : b <+: c) : a < c := by
  by_cases heq : b = c
  · exact heq ▸ h
  · exact List.lt_trans h (lt_of_extends h' heq)

theorem lt_or_eq_or_lt (a b : Bytes) : a < b ∨ a = b ∨ b < a := by
  by_cases hab : a < b
  · exact .inl hab
  · by_cases hba : b < a
    · exact .inr (.inr hba)
    · exact .inr (.inl (List.le_antisymm (List.not_lt.mp hba) (List.not_lt.mp hab)))

/-- **The strings with a prefix stand together.** -/
theorem prefix_between {q a b c : Bytes} (ha : q <+: a) (hc : q <+: c) (hab : a < b) (hbc : b < c) :
    q <+: b := by
  induction q generalizing a b c with
  | nil => exact List.nil_prefix
  | cons x q ih =>
    obtain ⟨a, rfl⟩ := ha
    obtain ⟨c, rfl⟩ := hc
    cases b with
    | nil => exact absurd hab (List.not_lt_nil _)
    | cons y b =>
      rw [List.cons_append, List.cons_lt_cons_iff] at hab hbc
      -- the byte of the middle string is held between two equal ones
      have hxy : x = y := by
        rcases hab with hxy | ⟨hxy, -⟩
        · rcases hbc with hyx | ⟨hyx, -⟩
          · exact absurd hxy (UInt8.lt_asymm hyx)
          · exact hyx.symm
        · exact hxy
      subst hxy
      have hab' : q ++ a < b := by
        rcases hab with hlt | ⟨-, hlt⟩
        · exact absurd hlt (UInt8.lt_irrefl _)
        · exact hlt
      have hbc' : b < q ++ c := by
        rcases hbc with hlt | ⟨-, hlt⟩
        · exact absurd hlt (UInt8.lt_irrefl _)
        · exact hlt
      exact (List.prefix_cons_inj x).mpr
        (ih (List.prefix_append ..) (List.prefix_append ..) hab' hbc')

/-- What is less than a string with a prefix, and does not have it, is less than the prefix. -/
theorem lt_of_lt_of_not_extends {p a b : Bytes} (hab : a < b) (hb : p <+: b) (ha : ¬ p <+: a) :
    a < p := by
  rcases lt_or_eq_or_lt a p with hlt | rfl | hlt
  · exact hlt
  · exact absurd (List.prefix_refl a) ha
  · exact absurd (prefix_between (List.prefix_refl p) hb hlt hab) ha

/-- Strings that part keep their order whatever follows. -/
theorem append_lt_append {a b : Bytes} (hlt : a < b) (hno : ¬ a <+: b) (x y : Bytes) :
    a ++ x < b ++ y := by
  induction a generalizing b with
  | nil => exact absurd List.nil_prefix hno
  | cons c a ih =>
    cases b with
    | nil => exact absurd hlt (List.not_lt_nil _)
    | cons d b =>
      rw [List.cons_lt_cons_iff] at hlt
      rw [List.cons_append, List.cons_append, List.cons_lt_cons_iff]
      rcases hlt with hlt | ⟨rfl, hlt⟩
      · exact .inl hlt
      · exact .inr ⟨rfl, ih hlt fun h => hno ((List.prefix_cons_inj c).mpr h)⟩

/-- The same for strings that start with those that part. -/
theorem lt_of_prefixes {a b a' b' : Bytes} (hlt : a < b) (hno : ¬ a <+: b) (ha : a <+: a')
    (hb : b <+: b') : a' < b' := by
  obtain ⟨x, rfl⟩ := ha
  obtain ⟨y, rfl⟩ := hb
  exact append_lt_append hlt hno x y

theorem take_agreement :
    ∀ a b : Bytes, a.take (agreement a b) = b.take (agreement a b)
  | [], _ => by simp [agreement]
  | _ :: _, [] => by simp [agreement]
  | x :: xs, y :: ys => by
    rw [agreement]
    split
    next h => rw [List.take_succ_cons, List.take_succ_cons, take_agreement xs ys, h]
    next => rfl

theorem agreement_le : ∀ a b : Bytes, agreement a b ≤ a.length ∧ agreement a b ≤ b.length
  | [], _ => by simp [agreement]
  | _ :: _, [] => by simp [agreement]
  | x :: xs, y :: ys => by
    have := agreement_le xs ys
    rw [agreement, List.length_cons, List.length_cons]
    split <;> omega

/-- What two strings both start with is no longer than they agree. -/
theorem length_le_agreement {q a b : Bytes} (ha : q <+: a) (hb : q <+: b) :
    q.length ≤ agreement a b := by
  induction q generalizing a b with
  | nil => exact Nat.zero_le _
  | cons x q ih =>
    obtain ⟨a, rfl⟩ := ha
    obtain ⟨b, rfl⟩ := hb
    rw [List.cons_append, List.cons_append, agreement, if_pos rfl, List.length_cons]
    exact Nat.succ_le_succ (ih (List.prefix_append ..) (List.prefix_append ..))

/-- Behind what two strings agree on they have nothing in common. -/
theorem eq_nil_of_drop_agreement {q : Bytes} :
    ∀ {a b : Bytes}, q <+: a.drop (agreement a b) → q <+: b.drop (agreement a b) → q = []
  | [], _, ha, _ => by simpa [agreement] using ha
  | _ :: _, [], _, hb => by simpa [agreement] using hb
  | x :: xs, y :: ys, ha, hb => by
    rw [agreement] at ha hb
    split at ha
    next h =>
      rw [if_pos h] at hb
      exact eq_nil_of_drop_agreement ha hb
    next h =>
      rw [if_neg h] at hb
      cases q with
      | nil => rfl
      | cons c q =>
        rw [List.drop_zero, List.cons_prefix_cons] at ha hb
        exact absurd (ha.1.symm.trans hb.1) h

end Lexicon.Bytes

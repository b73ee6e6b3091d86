import Lexicon.Proofs.Monotonic

/-!
# Monotonic rows from calls in any order

A builder may be given any values. It refuses one that is below the last one it took, and such a
call leaves it as it was, so what counts is the row of the values it accepted (`accepted`).

> **`Builder.attempts_read_back`** — whatever calls were made, the accepted values are read back
> from the bytes in the end, which the reader takes exactly.

What becomes of a call depends on the last value taken only, so the accepted values are a recursion
that remembers it, and the calls follow that recursion (`Builder.attempts_spec`).
-/

namespace Lexicon.Monotonic

open Read

/-! ## The accepted values -/

/-- The values that are taken of some calls after this last one: each that is not below the last
taken. -/
def acceptedFrom (last : Option Nat) : List Nat → List Nat
  | [] => []
  | value :: calls =>
    if last.all (· ≤ value) then value :: acceptedFrom (some value) calls
    else acceptedFrom last calls

/-- The values of some calls that are accepted: the first, and each that is not below the last
accepted one. -/
def accepted (calls : List Nat) : List Nat := acceptedFrom none calls

theorem sublist_acceptedFrom (calls : List Nat) :
    ∀ last, (acceptedFrom last calls).Sublist calls := by
  induction calls with
  | nil => exact fun _ => .slnil
  | cons value calls ih =>
    intro last
    rw [acceptedFrom]
    split
    · exact (ih (some value)).cons_cons value
    · exact (ih last).cons value

/-- The accepted values grow, and go on from the last one taken before. -/
theorem sorted_acceptedFrom (calls : List Nat) : ∀ last,
    (∀ p, last = some p → ∀ v ∈ acceptedFrom last calls, p ≤ v) ∧
      (acceptedFrom last calls).Pairwise (· ≤ ·) := by
  induction calls with
  | nil => exact fun _ => ⟨by simp [acceptedFrom], .nil⟩
  | cons value calls ih =>
    intro last
    rw [acceptedFrom]
    split
    next hle =>
      obtain ⟨hfrom, hsorted⟩ := ih (some value)
      have hfirst := hfrom value rfl
      refine ⟨?_, List.pairwise_cons.mpr ⟨hfirst, hsorted⟩⟩
      rintro p rfl v hv
      have hp : p ≤ value := by simpa using hle
      rcases List.mem_cons.mp hv with rfl | hv
      · exact hp
      · exact Nat.le_trans hp (hfirst v hv)
    next => exact ih last

namespace Builder

/-! ## The calls -/

/-- A call; a refused one leaves the builder as it was. -/
def attempt (b : Builder) (value : Nat) : Builder :=
  match b.add value with
  | .ok b' => b'
  | .error _ => b

/-- One call after the other. -/
def attempts (b : Builder) (calls : List Nat) : Builder := calls.foldl attempt b

/-- A value that is not below the last one is taken. -/
theorem add_ok {b : Builder} {value : Nat} (h : b.previous.all (· ≤ value)) :
    ∃ b', b.add value = .ok b' ∧ b'.previous = some value ∧ b'.count = b.count + 1 := by
  have hnone : b.previous.filter (value < ·) = none := by
    cases hprevious : b.previous with
    | none => rfl
    | some last =>
      rw [hprevious] at h
      rw [Option.filter_some, if_neg (by simpa using h)]
  rw [add, hnone]
  refine ⟨_, rfl, rfl, ?_⟩
  -- ending a full block leaves the number of values as it is
  simp only
  split <;> rfl

/-- A call is refused just if the value is below the last one taken, and the error names both. -/
theorem add_error_iff (b : Builder) (value : Nat) (e : Error) :
    b.add value = .error e ↔
      ∃ last, b.previous = some last ∧ value < last ∧ e = .notMonotonic value last := by
  constructor
  · intro h
    rw [add] at h
    split at h
    next last hfilter =>
      obtain ⟨hlast, hlt⟩ := Option.filter_eq_some_iff.mp hfilter
      exact ⟨last, hlast, by simpa using hlt, (Except.error.inj h).symm⟩
    next => cases h
  · rintro ⟨last, hlast, hlt, rfl⟩
    rw [add, hlast, Option.filter_some, if_pos (by simpa using hlt)]

/-- **Calls leave the builder as if only the accepted ones had been made.** -/
theorem attempts_spec (calls : List Nat) : ∀ b : Builder,
    (acceptedFrom b.previous calls).foldlM (fun b v => b.add v) b = .ok (b.attempts calls) ∧
      (b.attempts calls).previous = (acceptedFrom b.previous calls).getLast?.or b.previous ∧
      (b.attempts calls).count = b.count + (acceptedFrom b.previous calls).length := by
  induction calls with
  | nil => exact fun b => ⟨rfl, rfl, rfl⟩
  | cons value calls ih =>
    intro b
    have hattempts : b.attempts (value :: calls) = (b.attempt value).attempts calls := rfl
    rw [hattempts, attempt, acceptedFrom]
    by_cases hle : b.previous.all (· ≤ value) = true
    · obtain ⟨b', hadd, hprevious, hcount⟩ := add_ok hle
      obtain ⟨hfold, hlast, hlength⟩ := ih b'
      rw [hprevious] at hfold hlast hlength
      rw [if_pos hle, hadd, List.foldlM_cons, hadd]
      refine ⟨hfold, ?_, ?_⟩
      · rw [hlast, List.getLast?_cons]
        cases (acceptedFrom (some value) calls).getLast? <;> rfl
      · rw [hlength, hcount, List.length_cons]
        omega
    · have herror : ∃ e, b.add value = .error e := by
        cases hprevious : b.previous with
        | none => simp [hprevious] at hle
        | some last =>
          rw [hprevious] at hle
          exact ⟨_, (add_error_iff b value _).mpr ⟨last, hprevious, by simpa using hle, rfl⟩⟩
      obtain ⟨e, herror⟩ := herror
      rw [if_neg hle, herror]
      exact ih b

/-- **The accepted values are read back**, whatever calls were made. A call is refused just if its
value is below the last accepted one; the builder in the end is the one to which only the accepted
values were added, and its bytes are taken exactly by a reader that knows their number and the size
of the blocks. -/
theorem attempts_read_back {shift : Nat} {start : Builder} (hnew : new shift = .ok start)
    (calls : List Nat) (hsmall : ∀ v ∈ calls, v < 2 ^ 63) :
    (∀ before value after, calls = before ++ value :: after → ∀ e,
      (start.attempts before).add value = .error e ↔
        ∃ last, (accepted before).getLast? = some last ∧ value < last ∧
          e = .notMonotonic value last) ∧
    (accepted calls).foldlM (fun b v => b.add v) start = .ok (start.attempts calls) ∧
    (start.attempts calls).count = (accepted calls).length ∧
    Takes (read (accepted calls).length shift) (start.attempts calls).finish (accepted calls) := by
  obtain ⟨hshift, rfl⟩ : validShift shift = true ∧ start = { shift } := by
    rw [new] at hnew
    split at hnew
    next hshift => exact ⟨hshift, (Except.ok.inj hnew).symm⟩
    next => cases hnew
  obtain ⟨hadded, -, hcount⟩ := attempts_spec calls { shift }
  refine ⟨fun before value _ _ e => ?_, hadded, ?_, ?_⟩
  · rw [add_error_iff, (attempts_spec before { shift }).2.1, Option.or_none, accepted]
  · rw [hcount, Nat.zero_add, accepted]
  · have hsorted := (sorted_acceptedFrom calls none).2
    have hvalues : ∀ v ∈ accepted calls, v < 2 ^ 63 := fun v hv =>
      hsmall v ((sublist_acceptedFrom calls none).subset hv)
    obtain ⟨b, hfold, hfinish⟩ :=
      foldlM_add (accepted calls) { shift } (Nat.zero_le _) ⟨by simp, hsorted⟩
    obtain rfl : b = ({ shift } : Builder).attempts calls :=
      Except.ok.inj (hfold.symm.trans hadded)
    rw [hfinish]
    exact takes_read hshift hsorted hvalues

/-- Values with some below the one before them; those that are accepted fill one block and begin
another, which spans half of all numbers. -/
def jagged : List Nat := [7, 5, 7, 20, 19, 1000, 2 ^ 62, 999, 2 ^ 63 - 1, 3]

theorem attempts_read_back_jagged :
    new 2 = .ok { shift := 2 } ∧ (∀ v ∈ jagged, v < 2 ^ 63) ∧
      Takes (read 6 2) (({ shift := 2 } : Builder).attempts jagged).finish
        [7, 7, 20, 1000, 2 ^ 62, 2 ^ 63 - 1] := by
  have hnew : new 2 = .ok { shift := 2 } := rfl
  have hsmall : ∀ v ∈ jagged, v < 2 ^ 63 := by decide
  have haccepted : accepted jagged = [7, 7, 20, 1000, 2 ^ 62, 2 ^ 63 - 1] := by decide
  have hread := (attempts_read_back hnew jagged hsmall).2.2.2
  rw [haccepted] at hread
  exact ⟨hnew, hsmall, hread⟩

end Builder

end Lexicon.Monotonic

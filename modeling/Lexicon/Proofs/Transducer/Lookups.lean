import Lexicon.Proofs.Reading
import Lexicon.Transducer.Format

/-!
# The longest key is the last that lookups find

A text is looked up whole, or each of its beginnings is, one after the other. Both ways go over the
same arcs and stop for different reasons; what they find is the same, whatever the nodes are.

> **`longest_last_found`** — the longest key at the front of a text is the last of its beginnings
> that a lookup finds; where there is an error on the way, a lookup meets the same.

Nothing is assumed of the nodes: arcs may be out of order or there twice, lead anywhere or back, or
not be readable. One step of either way is the same arc (`follow_arc`, `followLongest_arc`), so the
induction is over the text, and what is found past an arc is one byte further on (`Tells.succ`).
-/

namespace Lexicon.Transducer

variable {t : Transducer}

/-! ## One arc -/

/-- Nothing is found where no node is. -/
theorem follow_end (output key : Bytes) : t.follow none output key = .ok none := by
  cases key <;> rfl

/-- Where no node is, the best so far is the longest. -/
theorem followLongest_end (output : Bytes) (depth : Nat) (best : Option (Nat × Bytes))
    (text : Bytes) : t.followLongest none output depth best text = .ok best := by
  cases text <;> rfl

section Arcs

variable {address : Nat} {label : UInt8} {output rest : Bytes} {depth : Nat}
  {best : Option (Nat × Bytes)}

/-- An arc that cannot be read is the error of the lookup. -/
theorem follow_error {e : Error} (h : t.arc? address label = .error e) :
    t.follow (some address) output (label :: rest) = .error e := by
  rw [follow, h]
  rfl

/-- Without an arc for the first byte nothing is found. -/
theorem follow_absent (h : t.arc? address label = .ok none) :
    t.follow (some address) output (label :: rest) = .ok none := by
  rw [follow, h]
  rfl

/-- The last byte is found if its arc ends a key. -/
theorem follow_last {arc : Arc} (h : t.arc? address label = .ok (some arc)) :
    t.follow (some address) output [label]
      = .ok (if arc.final then some (output ++ arc.output ++ arc.finalOutput) else none) := by
  rw [follow, h]
  rfl

/-- Before the last byte the lookup goes on behind the arc. -/
theorem follow_arc {arc : Arc} (h : t.arc? address label = .ok (some arc)) (hrest : rest ≠ []) :
    t.follow (some address) output (label :: rest)
      = t.follow arc.target (output ++ arc.output) rest := by
  rw [follow, h, ok_bind]
  simp [hrest]

theorem followLongest_error {e : Error} (h : t.arc? address label = .error e) :
    t.followLongest (some address) output depth best (label :: rest) = .error e := by
  rw [followLongest, h]
  rfl

theorem followLongest_absent (h : t.arc? address label = .ok none) :
    t.followLongest (some address) output depth best (label :: rest) = .ok best := by
  rw [followLongest, h]
  rfl

/-- An arc that ends a key is the best so far, and the lookup goes on behind it. -/
theorem followLongest_arc {arc : Arc} (h : t.arc? address label = .ok (some arc)) :
    t.followLongest (some address) output depth best (label :: rest)
      = t.followLongest arc.target (output ++ arc.output) (depth + 1)
        (if arc.final then some (depth + 1, output ++ arc.output ++ arc.finalOutput) else best)
        rest := by
  rw [followLongest, h]
  rfl

end Arcs

/-! ## The beginnings of a text -/

/-- A beginning of some length is not empty. -/
theorem take_ne_nil {text : Bytes} {n : Nat} (hpos : 0 < n) (hle : n ≤ text.length) :
    text.take n ≠ [] := by
  rw [← List.length_pos_iff, List.length_take]
  omega

/-- Of the lookups of one and more bytes, this is the last that finds anything. -/
structure Last (lookup : Nat → Except Error (Option Bytes)) (length n : Nat) (output : Bytes) :
    Prop where
  pos : 0 < n
  le : n ≤ length
  found : lookup n = .ok (some output)
  beyond : ∀ m, n < m → m ≤ length → lookup m = .ok none

/-- What the lookups of one and more bytes say of the longest key, which is `best` if none of them
finds anything. -/
def Tells (lookup : Nat → Except Error (Option Bytes)) (length depth : Nat)
    (best : Option (Nat × Bytes)) : Except Error (Option (Nat × Bytes)) → Prop
  | .ok longest =>
    (longest = best ∧ ∀ n, 0 < n → n ≤ length → lookup n = .ok none) ∨
      ∃ n output, longest = some (depth + n, output) ∧ Last lookup length n output
  | .error e => ∃ n, 0 < n ∧ n ≤ length ∧ lookup n = .error e

section Succ

variable {lookup later : Nat → Except Error (Option Bytes)} {length : Nat}

/-- What is last behind one byte is last with this byte in front. -/
theorem Last.succ (hlater : ∀ n, 0 < n → n ≤ length → lookup (n + 1) = later n) {n : Nat}
    {output : Bytes} (h : Last later length n output) :
    Last lookup (length + 1) (n + 1) output where
  pos := Nat.succ_pos n
  le := Nat.succ_le_succ h.le
  found := (hlater n h.pos h.le).trans h.found
  beyond m hlt hle := by
    obtain ⟨m, rfl⟩ := Nat.exists_eq_add_of_lt (Nat.zero_lt_of_lt hlt)
    rw [Nat.zero_add] at hlt hle ⊢
    have hn := h.pos
    rw [hlater m (by omega) (by omega)]
    exact h.beyond m (by omega) (by omega)

/-- Lookups that begin with an arc say what those past it say, with the key that it ends as the best
before them. -/
theorem Tells.succ {depth : Nat} {best : Option (Nat × Bytes)} {final : Bool} {output : Bytes}
    {result : Except Error (Option (Nat × Bytes))}
    (hfirst : lookup 1 = .ok (if final then some output else none))
    (hlater : ∀ n, 0 < n → n ≤ length → lookup (n + 1) = later n)
    (h : Tells later length (depth + 1) (if final then some (depth + 1, output) else best) result) :
    Tells lookup (length + 1) depth best result := by
  cases result with
  | error e =>
    obtain ⟨n, hpos, hle, herror⟩ := h
    exact ⟨n + 1, Nat.succ_pos n, Nat.succ_le_succ hle, (hlater n hpos hle).trans herror⟩
  | ok longest =>
    rcases h with ⟨rfl, hnone⟩ | ⟨n, value, rfl, hlast⟩
    · have hbeyond : ∀ n, 1 < n → n ≤ length + 1 → lookup n = .ok none := by
        intro n hlt hle
        obtain ⟨n, rfl⟩ : ∃ k, n = k + 1 := ⟨n - 1, by omega⟩
        rw [hlater n (by omega) (by omega)]
        exact hnone n (by omega) (by omega)
      cases final with
      | true => exact .inr ⟨1, output, rfl, Nat.one_pos, Nat.le_add_left .., hfirst, hbeyond⟩
      | false =>
        refine .inl ⟨rfl, fun n hpos hle => ?_⟩
        rcases Nat.eq_or_lt_of_le hpos with rfl | hlt
        · exact hfirst
        · exact hbeyond n hlt hle
    · exact .inr ⟨n + 1, value, by rw [Nat.add_assoc, Nat.add_comm 1], hlast.succ hlater⟩

end Succ

/-- The longest lookup agrees with looking up each beginning of the text. -/
theorem followLongest_tells (t : Transducer) (text : Bytes) :
    ∀ (node : Option Nat) (output : Bytes) (depth : Nat) (best : Option (Nat × Bytes)),
      Tells (fun n => t.follow node output (text.take n)) text.length depth best
        (t.followLongest node output depth best text) := by
  induction text with
  | nil => exact fun _ _ _ best => .inl ⟨rfl, fun n hpos hle => by simp at hle; omega⟩
  | cons label rest ih =>
    intro node output depth best
    have htake : ∀ n, 0 < n → (label :: rest).take n = label :: rest.take (n - 1) :=
      fun n hpos => List.take_cons hpos
    cases node with
    | none =>
      rw [followLongest_end]
      exact .inl ⟨rfl, fun n _ _ => follow_end ..⟩
    | some address =>
      cases harc : t.arc? address label with
      | error e =>
        rw [followLongest_error harc]
        exact ⟨1, Nat.one_pos, Nat.le_add_left .., follow_error harc⟩
      | ok found =>
        cases found with
        | none =>
          rw [followLongest_absent harc]
          refine .inl ⟨rfl, fun n hpos _ => ?_⟩
          simp only [htake n hpos]
          exact follow_absent harc
        | some arc =>
          rw [followLongest_arc harc]
          refine (ih arc.target (output ++ arc.output) (depth + 1) _).succ (follow_last harc) ?_
          intro n hpos hle
          exact follow_arc harc (take_ne_nil hpos hle)

/-- **The longest key at the front of a text is the last of its beginnings that is found**, in every
transducer, whatever its nodes are. Where there is no such key, none of the beginnings is found, and
an error is one that looking up a beginning meets as well. -/
theorem longest_last_found (t : Transducer) (text : Bytes) :
    (∀ n output, t.longest? text = .ok (some (n, output)) →
      n ≤ text.length ∧ t.get? (text.take n) = .ok (some output) ∧
        ∀ m, n < m → m ≤ text.length → t.get? (text.take m) = .ok none) ∧
    (t.longest? text = .ok none → ∀ n ≤ text.length, t.get? (text.take n) = .ok none) ∧
    ∀ e, t.longest? text = .error e → ∃ n ≤ text.length, t.get? (text.take n) = .error e := by
  have htells := t.followLongest_tells text t.root [] 0 (t.emptyOutput.map (0, ·))
  have hget : ∀ n, 0 < n → n ≤ text.length →
      t.get? (text.take n) = t.follow t.root [] (text.take n) := by
    intro n hpos hle
    rw [get?, if_neg (by simpa using take_ne_nil hpos hle)]
  have hempty : t.get? (text.take 0) = .ok t.emptyOutput := rfl
  rw [longest?]
  refine ⟨?found, ?absent, ?error⟩
  case found =>
    intro n output hlongest
    rw [hlongest] at htells
    rcases htells with ⟨heq, hnone⟩ | ⟨k, value, heq, hlast⟩
    · -- the empty key is the only one
      obtain ⟨value, hvalue, hpair⟩ := Option.map_eq_some_iff.mp heq.symm
      obtain ⟨rfl, rfl⟩ := Prod.mk.inj hpair
      refine ⟨Nat.zero_le _, by rw [hempty, hvalue], fun m hpos hle => ?_⟩
      rw [hget m hpos hle]
      exact hnone m hpos hle
    · rw [Nat.zero_add, Option.some.injEq, Prod.mk.injEq] at heq
      obtain ⟨rfl, rfl⟩ := heq
      refine ⟨hlast.le, (hget n hlast.pos hlast.le).trans hlast.found, fun m hlt hle => ?_⟩
      rw [hget m (Nat.zero_lt_of_lt hlt) hle]
      exact hlast.beyond m hlt hle
  case absent =>
    intro hlongest n hle
    rw [hlongest] at htells
    rcases htells with ⟨heq, hnone⟩ | ⟨k, value, heq, -⟩
    · rcases Nat.eq_zero_or_pos n with rfl | hpos
      · rw [hempty, Option.map_eq_none_iff.mp heq.symm]
      · rw [hget n hpos hle]
        exact hnone n hpos hle
    · cases heq
  case error =>
    intro e hlongest
    rw [hlongest] at htells
    obtain ⟨n, hpos, hle, herror⟩ := htells
    exact ⟨n, hle, (hget n hpos hle).trans herror⟩

/-- One node, whose arcs are out of order and one of them there twice. One leads back to the node,
and others lead beyond its end. -/
def tangled : Transducer where
  nodes := [4, 98, 3, 1, 7, 0, 98, 9, 97, 0, 50, 99, 0, 50]
  root := some 0
  emptyOutput := none
  size := 1

theorem longest_last_found_tangled :
    load (Cursor.start ([1, 0, 1, 0, 14] ++ tangled.nodes)) = .ok tangled ⟨19, []⟩ ∧
      (tangled.longest? [98, 98, 100] = .ok (some (2, [7, 7])) ∧
        tangled.get? [98, 98] = .ok (some [7, 7]) ∧ tangled.get? [98, 98, 100] = .ok none) ∧
      (tangled.longest? [97, 98] = .ok none ∧ tangled.get? [97] = .ok none) ∧
      tangled.longest? [99, 98] = .error (.corrupt (.positionBeyondEnd 50 14)) ∧
        ∃ n ≤ 2, tangled.get? ([99, 98].take n) = .error (.corrupt (.positionBeyondEnd 50 14)) := by
  have hfound : tangled.longest? [98, 98, 100] = .ok (some (2, [7, 7])) := by rfl
  have habsent : tangled.longest? [97, 98] = .ok none := by rfl
  have herror : tangled.longest? [99, 98] = .error (.corrupt (.positionBeyondEnd 50 14)) := by rfl
  obtain ⟨-, hget, hbeyond⟩ := (longest_last_found tangled [98, 98, 100]).1 2 [7, 7] hfound
  refine ⟨by rfl, ⟨hfound, hget, hbeyond 3 (by decide) (by decide)⟩, ⟨habsent, ?_⟩, herror, ?_⟩
  · exact (longest_last_found tangled [97, 98]).2.1 habsent 1 (by decide)
  · exact (longest_last_found tangled [99, 98]).2.2 _ herror

end Lexicon.Transducer

import Lexicon.Proofs.Transducer.Building

/-!
# Calls in any order

A builder may be called with any keys. It refuses a key that does not sort after the last one it
took, and such a call leaves it as it was, so what counts is the list of pairs it accepted
(`Pairs.accepted`).

> **`Builder.maps_accepted`** — the transducer in the end is exactly the map of the accepted pairs,
> for every way to look at it (`Maps`).

Which calls are refused depends on the number of keys and the last one only (`Builder.Tracks`); that
the pairs are all kept is `Builder.Holds`, carried from call to call.
-/

namespace Lexicon.Transducer

open Builder (lastKey)

/-! ## The accepted pairs -/

/-- A builder that took these pairs takes the key: there are none, or it sorts after the last. -/
def Follows (taken : Pairs) (key : Bytes) : Prop := taken = [] ∨ lastKey taken < key

instance (taken : Pairs) (key : Bytes) : Decidable (Follows taken key) :=
  inferInstanceAs (Decidable (_ ∨ _))

/-- The pairs taken in the end, when `taken` are taken before the calls. -/
def acceptedFrom (taken : Pairs) : Pairs → Pairs
  | [] => taken
  | call :: calls =>
    acceptedFrom (if Follows taken call.1 then taken ++ [call] else taken) calls

/-- The pairs of some calls that are accepted: the first, and each whose key sorts after the last
accepted one. -/
def accepted (calls : Pairs) : Pairs := acceptedFrom [] calls

/-- Only what was taken or called for is accepted. -/
theorem mem_acceptedFrom (calls : Pairs) :
    ∀ {taken : Pairs} {p : Bytes × Bytes}, p ∈ acceptedFrom taken calls → p ∈ taken ++ calls := by
  induction calls with
  | nil => intro taken p hp; rwa [List.append_nil]
  | cons call calls ih =>
    intro taken p hp
    rcases List.mem_append.mp (ih hp) with hmem | hmem
    · split at hmem
      · rw [List.append_cons]
        exact List.mem_append_left _ hmem
      · exact List.mem_append_left _ hmem
    · exact List.mem_append_right _ (List.mem_cons_of_mem _ hmem)

/-- A key that follows keeps the order. -/
theorem Follows.increasing {taken : Pairs} {key : Bytes} (h : Follows taken key)
    (htaken : taken.Increasing) (output : Bytes) : (taken ++ [(key, output)]).Increasing := by
  refine htaken.concat fun p hp => ?_
  refine htaken.of_last (fun _ _ => List.lt_trans) (fun last hlast => ?_) p hp
  have hlt := h.resolve_left (List.ne_nil_of_mem hp)
  rwa [Builder.lastKey, hlast] at hlt

/-- What is accepted is in order. -/
theorem increasing_acceptedFrom (calls : Pairs) :
    ∀ {taken : Pairs}, taken.Increasing → (acceptedFrom taken calls).Increasing := by
  induction calls with
  | nil => intro taken h; exact h
  | cons call calls ih =>
    intro taken h
    refine ih ?_
    split
    next hfollows => exact hfollows.increasing h call.2
    next => exact h

/-- A pair of an increasing row follows those before it. -/
theorem follows_of_increasing {taken rest : Pairs} {call : Bytes × Bytes}
    (h : (taken ++ call :: rest).Increasing) : Follows taken call.1 := by
  rcases List.eq_nil_or_concat taken with rfl | ⟨front, last, rfl⟩
  · exact .inl rfl
  · rw [List.concat_eq_append] at h ⊢
    have hcross := (List.pairwise_append.mp h).2.2
    refine .inr ?_
    rw [Builder.lastKey_append]
    exact hcross last (by simp) call (List.mem_cons_self ..)

/-- Calls in order are all accepted. -/
theorem acceptedFrom_of_increasing (calls : Pairs) :
    ∀ {taken : Pairs}, (taken ++ calls).Increasing → acceptedFrom taken calls = taken ++ calls := by
  induction calls with
  | nil => intro taken _; exact (List.append_nil taken).symm
  | cons call calls ih =>
    intro taken h
    rw [acceptedFrom, if_pos (follows_of_increasing h), List.append_cons taken call calls]
    rw [List.append_cons] at h
    exact ih h

/-- Keys that are in order are all accepted. -/
theorem accepted_of_increasing {calls : Pairs} (h : calls.Increasing) : accepted calls = calls :=
  acceptedFrom_of_increasing calls h

/-! ## What a transducer answers -/

/-- The transducer is exactly the map of these pairs, whichever way it is asked. -/
structure Maps (t : Transducer) (pairs : Pairs) : Prop where
  increasing : pairs.Increasing
  size : t.size = pairs.length
  get : ∀ key output, (key, output) ∈ pairs → t.get? key = .ok (some output)
  absent : ∀ key, key ∉ pairs.map (·.1) → t.get? key = .ok none
  items : ∀ limit, t.items limit = (pairs.take limit).map .ok
  longest : ∀ text, ∃ found, t.longest? text = .ok found ∧ Longest pairs text found

/-- A transducer that spells pairs in order maps them. -/
theorem Denotes.maps {t : Transducer} {pairs : Pairs} (h : t.Denotes pairs)
    (hincreasing : pairs.Increasing) : t.Maps pairs := by
  refine ⟨hincreasing, h.size, fun key output hmem => ?_, fun key hnot => ?_, items_eq h,
    longest?_spec h⟩
  · obtain ⟨found, hget, hiff⟩ := get?_spec h key
    rw [hget, (hiff output).mpr hmem]
  · obtain ⟨found, hget, hiff⟩ := get?_spec h key
    cases found with
    | none => exact hget
    | some output => exact absurd (List.mem_map_of_mem ((hiff output).mp rfl)) hnot

namespace Builder

/-! ## The calls -/

/-- A call; a refused one leaves the builder as it was. -/
def attempt (b : Builder) (call : Bytes × Bytes) : Builder :=
  match b.add call.1 call.2 with
  | .ok b' => b'
  | .error _ => b

/-- One call after the other. -/
def attempts (b : Builder) (calls : Pairs) : Builder := calls.foldl attempt b

/-- What decides about the next call: how many pairs there are, and the last key. -/
structure Tracks (b : Builder) (taken : Pairs) : Prop where
  size : b.size = taken.length
  last : b.last = lastKey taken

variable {b : Builder} {taken : Pairs} {key : Bytes}

/-- A key that does not follow is refused by its name and the last one. -/
theorem Tracks.add_refused (h : b.Tracks taken) (hnot : ¬ Follows taken key) (output : Bytes) :
    b.add key output = .error (.transducer (.keyOutOfOrder key (lastKey taken))) := by
  rw [Follows, not_or] at hnot
  have hpos : 0 < b.size := by
    rw [h.size]
    exact List.length_pos_iff.mpr hnot.1
  rw [add, h.last, if_pos ⟨hpos, hnot.2⟩]

/-- A key that follows is taken. -/
theorem Tracks.add_taken (h : b.Tracks taken) (hfollows : Follows taken key) (output : Bytes) :
    ∃ b', b.add key output = .ok b' ∧ b'.Tracks (taken ++ [(key, output)]) := by
  have hfree : ¬ (0 < b.size ∧ ¬ b.last < key) := by
    rintro ⟨hpos, hnot⟩
    rcases hfollows with rfl | hlt
    · rw [h.size] at hpos
      exact absurd hpos (Nat.lt_irrefl 0)
    · exact hnot (h.last ▸ hlt)
  have hsize : b.size + 1 = (taken ++ [(key, output)]).length := by
    rw [h.size, List.length_append]
    rfl
  rw [add, if_neg hfree]
  cases key with
  | nil =>
    -- Only the first key can be empty, and then the last key still reads as empty.
    obtain rfl := hfollows.resolve_right (List.not_lt_nil _)
    exact ⟨_, rfl, hsize, h.last⟩
  | cons label rest => exact ⟨_, rfl, hsize, (lastKey_append taken (label :: rest, output)).symm⟩

/-- A call is refused just if the key does not come after those taken. -/
theorem Tracks.refused_iff (h : b.Tracks taken) (output : Bytes) :
    (∃ e, b.add key output = .error e) ↔ taken ≠ [] ∧ ¬ lastKey taken < key := by
  rw [← not_or]
  constructor
  · rintro ⟨e, herror⟩ hfollows
    obtain ⟨b', hadd, -⟩ := h.add_taken hfollows output
    rw [hadd] at herror
    simp at herror
  · exact fun hnot => ⟨_, h.add_refused hnot output⟩

/-- Keys are added one part after the other. -/
theorem addAll_append (b : Builder) (front back : Pairs) :
    b.addAll (front ++ back) = b.addAll front >>= fun b => b.addAll back := by
  induction front generalizing b with
  | nil => rfl
  | cons p front ih =>
    obtain ⟨key, output⟩ := p
    rw [List.cons_append, addAll, addAll, bind_assoc]
    exact congrArg _ (funext ih)

/-- **Calls leave the builder as if only the accepted ones had been made.** -/
theorem attempts_spec (calls : Pairs) : ∀ {b : Builder} {taken : Pairs}, b.Tracks taken →
    ({} : Builder).addAll taken = .ok b →
    (b.attempts calls).Tracks (acceptedFrom taken calls) ∧
      ({} : Builder).addAll (acceptedFrom taken calls) = .ok (b.attempts calls) := by
  induction calls with
  | nil => intro b taken h hall; exact ⟨h, hall⟩
  | cons call calls ih =>
    intro b taken h hall
    obtain ⟨key, output⟩ := call
    rw [attempts, List.foldl_cons, attempt, acceptedFrom]
    by_cases hfollows : Follows taken key
    · obtain ⟨b', hadd, htracks⟩ := h.add_taken hfollows output
      rw [if_pos hfollows, hadd]
      refine ih htracks ?_
      rw [addAll_append, hall]
      show (b.add key output >>= fun b => .ok b) = .ok b'
      rw [hadd]
      rfl
    · rw [if_neg hfollows, h.add_refused hfollows output]
      exact ih h hall

/-- Calls in order are all taken. -/
theorem addAll_of_increasing {calls : Pairs} (h : calls.Increasing) :
    ({} : Builder).addAll calls = .ok (attempts {} calls) := by
  have hstart : Tracks {} [] := ⟨rfl, rfl⟩
  have hall : ({} : Builder).addAll (accepted calls) = .ok (attempts {} calls) :=
    (attempts_spec calls hstart rfl).2
  rwa [accepted_of_increasing h] at hall

/-- **Calls in disorder are refused** for the first key that does not sort after the one before
it. -/
theorem Tracks.addAll_refused (calls : Pairs) :
    ∀ {b : Builder} {taken : Pairs}, b.Tracks taken → taken.Increasing →
      ¬ (taken ++ calls).Increasing →
      ∃ (before after : Pairs) (key output : Bytes),
        taken ++ calls = before ++ (key, output) :: after ∧
        before ≠ [] ∧ before.Increasing ∧ ¬ lastKey before < key ∧
        b.addAll calls = .error (.transducer (.keyOutOfOrder key (lastKey before))) := by
  induction calls with
  | nil =>
    intro b taken _ htaken hnot
    rw [List.append_nil] at hnot
    exact absurd htaken hnot
  | cons call calls ih =>
    intro b taken h htaken hnot
    obtain ⟨key, output⟩ := call
    by_cases hfollows : Follows taken key
    · obtain ⟨b', hadd, htracks⟩ := h.add_taken hfollows output
      rw [List.append_cons] at hnot ⊢
      obtain ⟨before, after, key', output', hsplit, hne, hbefore, hlast, herror⟩ :=
        ih htracks (hfollows.increasing htaken output) hnot
      refine ⟨before, after, key', output', hsplit, hne, hbefore, hlast, ?_⟩
      rw [addAll, hadd]
      exact herror
    · have herror := h.add_refused hfollows output
      obtain ⟨hne, hlast⟩ := not_or.mp hfollows
      refine ⟨taken, calls, key, output, rfl, hne, htaken, hlast, ?_⟩
      rw [addAll, herror]
      rfl

/-! ## The nodes in the end -/

/-- A call takes no bytes away, refused or not. -/
theorem length_le_attempt (b : Builder) (call : Bytes × Bytes) :
    b.store.nodes.length ≤ (b.attempt call).store.nodes.length := by
  rw [attempt, add]
  split_ifs
  · exact Nat.le_refl _
  · exact Nat.le_refl _
  · exact Path.length_le_insert ..

theorem length_le_attempts (calls : Pairs) : ∀ b : Builder,
    b.store.nodes.length ≤ (b.attempts calls).store.nodes.length := by
  induction calls with
  | nil => exact fun b => Nat.le_refl _
  | cons call calls ih => exact fun b => Nat.le_trans (b.length_le_attempt call) (ih _)

/-- **What is accepted is all kept**, call by call. -/
theorem attempts_holds {most : Nat} (hwidth : most < 2 ^ 32) (calls : Pairs) :
    ∀ {b : Builder} {taken : Pairs}, Holds most b taken →
      (∀ p ∈ taken ++ calls, p.2.length ≤ most) →
      (b.attempts calls).store.nodes.length ≤ 2 ^ 64 →
      Holds most (b.attempts calls) (acceptedFrom taken calls) := by
  induction calls with
  | nil => intro b taken h _ _; exact h
  | cons call calls ih =>
    intro b taken h hmost hroom
    obtain ⟨key, output⟩ := call
    have htracks : b.Tracks taken := ⟨h.size, h.last⟩
    have hattempts : b.attempts ((key, output) :: calls)
        = (b.attempt (key, output)).attempts calls := rfl
    rw [hattempts] at hroom ⊢
    rw [acceptedFrom]
    by_cases hfollows : Follows taken key
    · -- The nodes only grow from here on, so they are few enough now.
      have hnow : ∀ b', b.add key output = .ok b' → b'.store.nodes.length ≤ 2 ^ 64 := by
        intro b' hadd
        have hattempt : b.attempt (key, output) = b' := by rw [attempt, hadd]
        rw [hattempt] at hroom
        exact Nat.le_trans (length_le_attempts calls b') hroom
      obtain ⟨b', hadd, hholds⟩ := add_spec hwidth h hfollows
        (fun p hp => hmost p (List.mem_append_left _ hp)) (.inl hnow)
      have hattempt : b.attempt (key, output) = b' := by rw [attempt, hadd]
      rw [if_pos hfollows]
      rw [hattempt] at hroom ⊢
      exact ih hholds (by rwa [← List.append_cons]) hroom
    · -- A refused call changes nothing, so the pairs that are taken stay the same.
      have hattempt : b.attempt (key, output) = b := by
        rw [attempt, htracks.add_refused hfollows]
      rw [if_neg hfollows]
      rw [hattempt] at hroom ⊢
      refine ih h (fun p hp => hmost p ?_) hroom
      rcases List.mem_append.mp hp with hp | hp
      · exact List.mem_append_left _ hp
      · exact List.mem_append_right _ (List.mem_cons_of_mem _ hp)

/-- What was accepted is held in the end, if lengths have 32 bits and offsets of nodes 64. -/
theorem holds_attempts {calls : Pairs} (houtputs : ∀ p ∈ calls, p.2.length < 2 ^ 32)
    (hroom : (attempts {} calls).finish.nodes.length ≤ 2 ^ 64) :
    Holds (2 ^ 32 - 1) (attempts {} calls) (accepted calls) :=
  attempts_holds (by omega) calls (holds_empty _)
    (fun p hp => Nat.le_sub_one_of_lt (houtputs p hp))
    (Nat.le_trans (Path.length_le_freeze (attempts {} calls).path (attempts {} calls).store) hroom)

/-- **The transducer in the end is the map of what was accepted.** -/
theorem denotes_attempts {calls : Pairs} (houtputs : ∀ p ∈ calls, p.2.length < 2 ^ 32)
    (hroom : (attempts {} calls).finish.nodes.length ≤ 2 ^ 64) :
    (attempts {} calls).finish.Denotes (accepted calls) :=
  (finish_spec (by omega) (holds_attempts houtputs hroom)
    (fun p hp => Nat.le_sub_one_of_lt (houtputs p (mem_acceptedFrom calls hp))) (.inl hroom)).1

/-- **The built transducer is exactly the map that was added**, whatever calls were made. A call is
refused just if a key was accepted before and the new one does not sort after the last accepted; the
builder in the end is the one to which only the accepted pairs were added. -/
theorem maps_accepted (calls : Pairs) (houtputs : ∀ p ∈ calls, p.2.length < 2 ^ 32)
    (hroom : (attempts {} calls).finish.nodes.length ≤ 2 ^ 64) :
    (∀ before key output after, calls = before ++ (key, output) :: after →
      ((∃ e, (attempts {} before).add key output = .error e) ↔
        accepted before ≠ [] ∧ ¬ lastKey (accepted before) < key)) ∧
    ({} : Builder).addAll (accepted calls) = .ok (attempts {} calls) ∧
    (attempts {} calls).finish.Maps (accepted calls) := by
  have hstart : Tracks {} [] := ⟨rfl, rfl⟩
  have hwidth : 2 ^ 32 - 1 < 2 ^ 32 := by omega
  have hmost : ∀ p ∈ calls, p.2.length ≤ 2 ^ 32 - 1 := fun p hp => by
    have := houtputs p hp
    omega
  have hgrows := Path.length_le_freeze (attempts {} calls).path (attempts {} calls).store
  have hholds : Holds (2 ^ 32 - 1) (attempts {} calls) (accepted calls) :=
    attempts_holds hwidth calls (holds_empty _) hmost (Nat.le_trans hgrows hroom)
  refine ⟨fun before key output after _ => ?_, (attempts_spec calls hstart rfl).2, ?_⟩
  · exact (attempts_spec before hstart rfl).1.refused_iff output
  · refine Denotes.maps ?_ (increasing_acceptedFrom calls List.Pairwise.nil)
    exact (finish_spec hwidth hholds
      (fun p hp => hmost p (mem_acceptedFrom calls hp)) (.inl hroom)).1

/-- Calls in some disorder: the empty key comes twice, a key comes after one it is the front of, and
one comes again. -/
def disorder : Pairs :=
  [([], [5]), ([], [6]), ([1, 2], [7, 8]), ([1], [9]), ([1, 2, 3], [7]), ([1, 3], [7, 8]),
    ([1, 2, 3], [0]), ([4], [])]

/-- The calls that repeat a key or go back are left out. -/
theorem maps_accepted_disorder :
    (∀ p ∈ disorder, p.2.length < 2 ^ 32) ∧
      (attempts {} disorder).finish.nodes.length ≤ 2 ^ 64 ∧
      (attempts {} disorder).finish.Maps
        [([], [5]), ([1, 2], [7, 8]), ([1, 2, 3], [7]), ([1, 3], [7, 8]), ([4], [])] := by
  have houtputs : ∀ p ∈ disorder, p.2.length < 2 ^ 32 := by decide
  have hroom : (attempts {} disorder).finish.nodes.length ≤ 2 ^ 64 := by decide +kernel
  exact ⟨houtputs, hroom, (maps_accepted disorder houtputs hroom).2.2⟩

end Builder

end Lexicon.Transducer

import Lexicon.Block.Frontier
import Lexicon.Proofs.Reading

/-!
# What writing blocks can fail with

Some errors tell the caller that a call came at the wrong time or with the wrong data
(`Error.isRefusal`). The writer raises them before it does anything; what it then does can fail too,
but never with one of these. So an error tells by its kind alone whether anything was done.

> **`Frontier.push_errors`** — completing the runs that a term leaves behind fails with no refusal.

That goes along `>>=` (`Unrefused.bind`, `NeverRefuses.bind`), one lemma a function, from the parts
of a block up to the frontier.
-/

namespace Lexicon

/-- Whether an error is about the call, which then does nothing. -/
def Error.isRefusal : Error → Bool
  | .termOutOfOrder .. | .fieldOutOfOrder .. | .invalidTermState _ | .closed | .failed => true
  | _ => false

/-- The error, if there is one, is no refusal. -/
def Unrefused {α : Type} (x : Except Error α) : Prop := ∀ e, x = .error e → e.isRefusal = false

/-- The computation fails with no refusal, wherever it starts. -/
def NeverRefuses {σ α : Type} (c : EStateM Error σ α) : Prop :=
  ∀ s e s', c s = .error e s' → e.isRefusal = false

section Steps

variable {σ α β : Type}

theorem unrefused_ok (a : α) : Unrefused (.ok a) := fun _ h => nomatch h

/-- An error that is no refusal may be given. -/
theorem unrefused_error {e : Error} (he : e.isRefusal = false) :
    Unrefused (.error e : Except Error α) := by
  intro e' h
  cases h
  exact he

/-- One computation after the other refuses nothing if neither does. -/
theorem Unrefused.bind {x : Except Error α} {f : α → Except Error β} (hx : Unrefused x)
    (hf : ∀ a, Unrefused (f a)) : Unrefused (x >>= f) := by
  cases x with
  | error e => exact unrefused_error (hx e rfl)
  | ok a => exact hf a

/-- A choice refuses nothing if neither branch does. -/
theorem Unrefused.ite {p : Prop} [Decidable p] {x y : Except Error α} (hx : Unrefused x)
    (hy : Unrefused y) : Unrefused (if p then x else y) := by
  split
  · exact hx
  · exact hy

/-- A computation along a list refuses nothing if it refuses none of the elements. -/
theorem unrefused_mapM {f : α → Except Error β} {l : List α} (hf : ∀ a ∈ l, Unrefused (f a)) :
    Unrefused (l.mapM f) := by
  induction l with
  | nil => exact unrefused_ok []
  | cons a l ih =>
    rw [List.mapM_cons]
    exact (hf a (List.mem_cons_self ..)).bind fun b =>
      (ih fun a' ha' => hf a' (List.mem_cons_of_mem _ ha')).bind fun bs => unrefused_ok _

theorem neverRefuses_pure (a : α) : NeverRefuses (pure a : EStateM Error σ α) :=
  fun _ _ _ h => nomatch h

/-- An error that is no refusal may be thrown. -/
theorem neverRefuses_throw {e : Error} (he : e.isRefusal = false) :
    NeverRefuses (throw e : EStateM Error σ α) := by
  intro s e' s' h
  cases h
  exact he

/-- One step after the other never refuses if neither does. -/
theorem NeverRefuses.bind {c : EStateM Error σ α} {f : α → EStateM Error σ β} (hc : NeverRefuses c)
    (hf : ∀ a, NeverRefuses (f a)) : NeverRefuses (c >>= f) := by
  intro s e s' h
  cases hfirst : c s with
  | error e₁ s₁ =>
    rw [bind_error hfirst] at h
    cases h
    exact hc s e s' hfirst
  | ok a s₁ =>
    rw [bind_ok hfirst] at h
    exact hf a s₁ e s' h

/-- A choice never refuses if neither branch does. -/
theorem NeverRefuses.ite {p : Prop} [Decidable p] {c d : EStateM Error σ α} (hc : NeverRefuses c)
    (hd : NeverRefuses d) : NeverRefuses (if p then c else d) := by
  split
  · exact hc
  · exact hd

/-- What is made of the result refuses nothing. -/
theorem NeverRefuses.map {c : EStateM Error σ α} (hc : NeverRefuses c) (f : α → β) :
    NeverRefuses (f <$> c) :=
  hc.bind fun a => neverRefuses_pure (f a)

end Steps

/-! ## Reading a transducer -/

namespace Read

/-- A byte that is missing is not a refusal. -/
theorem byte_errors : NeverRefuses byte := by
  intro c e c' h
  unfold byte at h
  split at h
  · cases h
    rfl
  · cases h

theorem bytes_errors (n : Nat) : NeverRefuses (bytes n) := by
  intro c e c' h
  simp only [bytes] at h
  split at h
  · cases h
  · cases h
    rfl

theorem varint_errors (width : Nat) (malformed : Nat → Corruption) :
    NeverRefuses (varint width malformed) := by
  intro c e c' h
  simp only [varint] at h
  split at h
  · cases h
  · cases h
    rfl

theorem block_errors : NeverRefuses block := (varint_errors _ _).bind bytes_errors

end Read

theorem Arc.read_errors : NeverRefuses Arc.read := by
  refine Read.byte_errors.bind fun label => Read.byte_errors.bind fun flags => ?_
  -- whichever parts follow, they are read in the same way
  refine .ite (Read.block_errors.bind fun output => ?_)
    ((neverRefuses_pure []).bind fun output => ?_) <;>
  refine .ite (Read.block_errors.bind fun finalOutput => ?_)
    ((neverRefuses_pure []).bind fun finalOutput => ?_) <;>
  refine .ite ((neverRefuses_pure none).bind fun target => ?_)
    (((Read.varint_errors _ _).map some).bind fun target => ?_) <;>
  exact .ite ((neverRefuses_throw rfl).bind fun _ => neverRefuses_pure _) (neverRefuses_pure _)

namespace Transducer

theorem readArcs_errors (count : Nat) : NeverRefuses (readArcs count) := by
  induction count with
  | zero => exact neverRefuses_pure []
  | succ count ih => exact Arc.read_errors.bind fun arc => ih.bind fun arcs => neverRefuses_pure _

theorem arcs_errors (t : Transducer) (address : Nat) : Unrefused (t.arcs address) := by
  refine Unrefused.bind ?_ fun c => ?_
  · unfold Cursor.at?
    split
    · exact unrefused_ok _
    · exact unrefused_error rfl
  · have hread : NeverRefuses (do
        let count ← Read.vint
        if count = 0 ∨ 256 < count then throw (.transducer (.badArcCount address count))
        readArcs count) := by
      refine (Read.varint_errors _ _).bind fun count => ?_
      exact .ite ((neverRefuses_throw rfl).bind fun _ => readArcs_errors count)
        (readArcs_errors count)
    split
    next => exact unrefused_ok _
    next e c' h => exact unrefused_error (hread _ _ _ h)

/-- One step of a walk through a transducer refuses nothing. -/
theorem next_errors (t : Transducer) (descents : Nat) (walk : Walk) :
    ∀ x walk', t.next descents walk = some (x, walk') → Unrefused x := by
  fun_induction t.next descents walk with
  | case1 => intro x walk' h; cases h
  | case2 _ _ _ _ ih => exact ih
  | case3 => intro x walk' h; cases h; exact unrefused_ok _
  | case4 _ _ _ _ _ _ _ _ e harcs =>
    intro x walk' h
    cases h
    exact unrefused_error (t.arcs_errors _ e harcs)
  | case5 => intro x walk' h; cases h; exact unrefused_ok _
  | case6 => intro x walk' h; cases h
  | case7 => next ih => exact ih

theorem itemsFrom_errors (t : Transducer) (limit : Nat) (walk : Walk) :
    ∀ x ∈ t.itemsFrom limit walk, Unrefused x := by
  induction limit generalizing walk with
  | zero => intro x hx; simp [itemsFrom] at hx
  | succ limit ih =>
    intro x hx
    rw [itemsFrom] at hx
    split at hx
    next => cases hx
    next item walk' hnext =>
      rcases List.mem_cons.mp hx with rfl | hx
      · exact t.next_errors _ _ _ _ hnext
      · exact ih walk' x hx

theorem items_errors (t : Transducer) (limit : Nat) : ∀ x ∈ t.items limit, Unrefused x := by
  intro x hx
  rw [items] at hx
  split at hx
  next e hroot =>
    -- the error is the one of the arcs of the root
    obtain ⟨root, -, harcs⟩ := Option.map_eq_some_iff.mp hroot
    obtain rfl := List.mem_singleton.mp (List.mem_of_mem_take hx)
    exact unrefused_error (t.arcs_errors root e harcs)
  next =>
    extract_lets walk at hx
    split at hx
    next => cases hx
    next =>
      rcases List.mem_cons.mp hx with rfl | hx
      · exact unrefused_ok _
      · exact t.itemsFrom_errors _ walk x hx
    next => exact t.itemsFrom_errors _ walk x hx

theorem entries_errors (t : Transducer) : Unrefused t.entries :=
  unrefused_mapM fun x hx => t.items_errors t.size x hx

/-- Building a transducer refuses nothing: keys out of order are an error of another kind. -/
theorem Builder.addAll_errors (b : Builder) (pairs : List (Bytes × Bytes)) :
    Unrefused (b.addAll pairs) := by
  induction pairs generalizing b with
  | nil => exact unrefused_ok b
  | cons pair pairs ih =>
    refine Unrefused.bind ?_ fun b' => ih b'
    unfold add
    split
    · exact unrefused_error rfl
    · split <;> exact unrefused_ok _

end Transducer

/-! ## Writing a run -/

/-- A block of a run that is out of place is a fault, not a refusal. -/
theorem siblingsAfter_errors (fp : Nat) (blocks : List WrittenBlock) :
    Unrefused (siblingsAfter fp blocks) := by
  induction blocks with
  | nil => exact unrefused_ok []
  | cons b rest ih =>
    rw [siblingsAfter]
    split
    · exact unrefused_error rfl
    · exact .ite ((unrefused_error rfl).bind fun _ => ih.bind fun _ => unrefused_ok _)
        (ih.bind fun _ => unrefused_ok _)

theorem compileIndex_errors (blocks : List WrittenBlock) : Unrefused (compileIndex blocks) := by
  cases blocks with
  | nil => exact unrefused_error rfl
  | cons first rest =>
    have hindex : Unrefused (do
        let siblings ← siblingsAfter first.fp rest
        let location : Location := ⟨first.fp, first.hasTerms, first.isFloor, siblings⟩
        let below ← ((first :: rest).flatMap (·.subIndexes)).mapM Transducer.entries
        let builder ←
          ({} : Transducer.Builder).addAll ((first.stem, location.encode) :: below.flatten)
        return ({ stem := first.stem, fp := first.fp, hasTerms := first.hasTerms
                  isFloor := first.isFloor, lead := first.lead, index := builder.finish }
                : SubBlock)) :=
      (siblingsAfter_errors _ _).bind fun _ =>
        (unrefused_mapM fun t _ => t.entries_errors).bind fun _ =>
          (Transducer.Builder.addAll_errors _ _).bind fun _ => unrefused_ok _
    exact .ite ((unrefused_error rfl).bind fun _ => hindex) hindex

/-- An entry that cannot be in a block is a fault of the writer, not a refusal. -/
theorem Entry.checkIn_errors (stem : Bytes) (leaf : Bool) (fp : Nat) (entry : Entry) :
    Unrefused (entry.checkIn stem leaf fp) := by
  cases entry <;> simp only [checkIn] <;> repeat' split
  all_goals first | exact unrefused_ok _ | exact unrefused_error rfl

theorem forM_checkIn_errors (stem : Bytes) (leaf : Bool) (fp : Nat) (entries : List Entry) :
    Unrefused (entries.forM (Entry.checkIn stem leaf fp)) := by
  induction entries with
  | nil => exact unrefused_ok ()
  | cons entry entries ih => exact (entry.checkIn_errors _ _ _).bind fun _ => ih

/-- Encoding a block refuses nothing. -/
theorem encodeBlock_errors (codec : LongsCodec) (hasFreqs : Bool) (stem : Bytes) (plan : BlockPlan)
    (fp : Nat) (entries : List Entry) (isLast : Bool) :
    Unrefused (encodeBlock codec hasFreqs stem plan fp entries isLast) := by
  refine .ite ((unrefused_error rfl).bind fun _ => ?_) ?_ <;>
  refine .ite ((unrefused_error rfl).bind fun _ => ?_) ?_ <;>
  refine (forM_checkIn_errors stem _ fp entries).bind fun _ => ?_ <;>
  split
  all_goals first | exact unrefused_error rfl | exact unrefused_ok _

namespace Frontier

theorem emitBlock_errors (hasFreqs : Bool) (stem : Bytes) (plan : BlockPlan) (entries : List Entry)
    (isLast : Bool) : NeverRefuses (emitBlock hasFreqs stem plan entries isLast) := by
  intro out e out' h
  unfold emitBlock at h
  split at h
  next e' hencode =>
    cases h
    exact encodeBlock_errors _ _ _ _ _ _ _ e hencode
  next => cases h

theorem emitRun_errors (hasFreqs : Bool) (stem : Bytes) (plans : List BlockPlan) :
    ∀ entries, NeverRefuses (emitRun hasFreqs stem plans entries) := by
  induction plans with
  | nil =>
    intro entries
    rw [emitRun]
    split
    · exact neverRefuses_pure []
    · exact neverRefuses_throw rfl
  | cons plan plans ih =>
    intro entries
    exact (emitBlock_errors _ _ _ _ _).bind fun _ => (ih _).bind fun _ => neverRefuses_pure _

variable (f : Frontier) (sizes : BlockSizes) (hasFreqs : Bool)

/-- Closing a run refuses nothing. -/
theorem closeRun_errors (depth start : Nat) :
    NeverRefuses (f.closeRun sizes hasFreqs depth start) := by
  refine .ite ((neverRefuses_throw rfl).bind fun _ => ?_) ?_ <;>
  refine .ite ((neverRefuses_throw rfl).bind fun _ => ?_) ?_ <;>
  refine .ite ((neverRefuses_throw rfl).bind fun _ => ?_) ?_ <;>
  refine (emitRun_errors _ _ _ _).bind fun written => ?_ <;>
  split
  all_goals first
    | exact neverRefuses_pure _
    | exact neverRefuses_throw (compileIndex_errors written _ ‹_›)

theorem closeRuns_errors (kept count : Nat) :
    ∀ f, NeverRefuses (closeRuns sizes hasFreqs kept count f) := by
  induction count with
  | zero => exact fun f => neverRefuses_pure f
  | succ count ih =>
    intro f
    rw [closeRuns]
    split
    · split
      · split
        · exact (f.closeRun_errors _ _ _ _).bind fun f' => ih f'
        · exact ih f
      · exact neverRefuses_throw rfl
    · exact neverRefuses_throw rfl

/-- Taking a term refuses nothing: what is refused is refused before. -/
theorem push_errors (term : Bytes) (state : TermState) :
    NeverRefuses (f.push sizes hasFreqs term state) :=
  ((closeRuns_errors _ _ _ _ _).bind fun _ => neverRefuses_pure _).bind fun _ => neverRefuses_pure _

end Frontier

end Lexicon

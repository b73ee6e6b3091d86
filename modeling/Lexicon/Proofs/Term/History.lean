import Lexicon.Proofs.Term.Longs

/-!
# Histories of a codec

The codecs of a writer and a reader are told of the terms one after the other, and of the fields
that begin between them: the writer's with the numbers of each term, the reader's only with whether
it is absolute. Each remembers one term, so what one call needs of those before it is that both
remember the same.

> **`history_read_back`** — a reader that starts with the writer's memory takes back all terms; from
> an absolute one on, neither what is written nor what is read depends on the calls before.

The number of a term's numbers is stored in 32 bits, and just the terms that it can count are read
back (`decode_encode_iff`).
-/

namespace Lexicon.LongsCodec

open Read

/-- What a writer's codec is told. -/
inductive Call where
  /-- A field begins, and with it there is no term before. -/
  | field
  | term (absolute : Bool) (longs : List UInt64)
  deriving DecidableEq, Repr

/-- What a reader's codec is told. -/
inductive Cue where
  | field
  | term (absolute : Bool)
  deriving DecidableEq, Repr

namespace Call

/-- What the reader is told of a call. -/
def cue : Call → Cue
  | field => .field
  | term absolute _ => .term absolute

/-- The numbers of the term, if there is one. -/
def longs? : Call → Option (List UInt64)
  | field => none
  | term _ longs => some longs

end Call

/-- The number of each term's numbers fits the 32 bits that it is stored in. -/
def Counted (calls : List Call) : Prop :=
  ∀ longs ∈ calls.filterMap Call.longs?, longs.length < 2 ^ 32

instance (calls : List Call) : Decidable (Counted calls) :=
  inferInstanceAs (Decidable (∀ longs ∈ calls.filterMap Call.longs?, longs.length < 2 ^ 32))

theorem Counted.cons_term {absolute : Bool} {longs : List UInt64} {calls : List Call} :
    Counted (.term absolute longs :: calls) ↔ longs.length < 2 ^ 32 ∧ Counted calls :=
  List.forall_mem_cons

/-- The bytes of some calls, and the codec after them. -/
def write (c : LongsCodec) : List Call → Bytes × LongsCodec
  | [] => ([], c)
  | .field :: calls => write {} calls
  | .term absolute longs :: calls =>
    let (items, next) := c.encode absolute longs
    let (bs, last) := write next calls
    (Item.encodeAll items ++ bs, last)

/-- What is read of each term, the codec after all of them, and the place that is reached. A read
that fails does not keep the next from being tried. -/
def reads (c : LongsCodec) (input : Cursor) :
    List Cue → List (Except Error (List UInt64)) × LongsCodec × Cursor
  | [] => ([], c, input)
  | .field :: cues => reads {} input cues
  | .term absolute :: cues =>
    let (result, next, input) := c.decode absolute input
    let (results, last, input) := reads next input cues
    (result :: results, last, input)

theorem write_term (c : LongsCodec) (absolute : Bool) (longs : List UInt64) (calls : List Call) :
    c.write (.term absolute longs :: calls)
      = (Item.encodeAll (c.encode absolute longs).1 ++ ((c.encode absolute longs).2.write calls).1,
        ((c.encode absolute longs).2.write calls).2) := rfl

/-- Calls are written one part after the other. -/
theorem write_append (calls more : List Call) : ∀ c : LongsCodec,
    c.write (calls ++ more) = ((c.write calls).1 ++ ((c.write calls).2.write more).1,
      ((c.write calls).2.write more).2) := by
  induction calls with
  | nil => intro c; rfl
  | cons call calls ih =>
    intro c
    cases call with
    | field => exact ih {}
    | term absolute longs =>
      rw [List.cons_append, write_term, write_term, ih, List.append_assoc]

/-- **An absolute term begins anew**, whatever term was before it. -/
theorem write_absolute (c other : LongsCodec) (longs : List UInt64) (calls : List Call) :
    c.write (.term true longs :: calls) = other.write (.term true longs :: calls) := rfl

/-- **A reader whose codec equals the writer's takes back all terms**, and they are equal again. -/
theorem reads_write (calls : List Call) :
    ∀ (c : LongsCodec) (position : Nat) (rest : Bytes),
      Counted calls →
      c.reads ⟨position, (c.write calls).1 ++ rest⟩ (calls.map Call.cue)
        = ((calls.filterMap Call.longs?).map .ok, (c.write calls).2,
          ⟨position + (c.write calls).1.length, rest⟩) := by
  induction calls with
  | nil => intro c position rest _; rfl
  | cons call calls ih =>
    intro c position rest hcount
    cases call with
    | field => exact ih {} position rest hcount
    | term absolute longs =>
      have hfirst : (Call.term absolute longs :: calls).filterMap Call.longs?
          = longs :: calls.filterMap Call.longs? := rfl
      obtain ⟨hlongs, hothers⟩ := Counted.cons_term.mp hcount
      rw [hfirst, write_term, List.map_cons, Call.cue, List.append_assoc, reads,
        decode_encode c absolute hlongs]
      simp only [ih _ _ rest hothers, List.map_cons, List.length_append, Nat.add_assoc]

/-! ## What can be counted -/

/-- As many longs are read as were asked for. -/
theorem length_of_readLongs (count : Nat) :
    ∀ {previous longs : List UInt64} {input stop : Cursor},
      readLongs previous count input = .ok longs stop → longs.length = count := by
  induction count with
  | zero =>
    intro previous longs input stop h
    cases h
    rfl
  | succ count ih =>
    intro previous longs input stop h
    obtain ⟨raw, mid, -, h⟩ := exists_of_bind_ok h
    obtain ⟨others, last, hothers, h⟩ := exists_of_bind_ok h
    cases h
    rw [List.length_cons, ih hothers]

/-- No term is read with more numbers than 32 bits can count, whatever the bytes. -/
theorem length_lt_of_read {c : LongsCodec} {absolute : Bool} {input stop : Cursor}
    {longs : List UInt64} (h : c.read absolute input = .ok longs stop) : longs.length < 2 ^ 32 := by
  obtain ⟨count, mid, hvint, h⟩ := exists_of_bind_ok h
  rw [bind_ok (show Read.remaining mid = .ok mid.remaining mid from rfl)] at h
  split at h
  next => cases h
  next =>
    rw [length_of_readLongs count h]
    exact gives_varint 32 _ _ _ _ hvint

/-- **Just the terms with fewer than 2^32 numbers are read back.** -/
theorem decode_encode_iff (c : LongsCodec) (absolute : Bool) (longs : List UInt64) (position : Nat)
    (rest : Bytes) :
    (c.decode absolute ⟨position, Item.encodeAll (c.encode absolute longs).1 ++ rest⟩).1
      = .ok longs ↔ longs.length < 2 ^ 32 := by
  constructor
  · intro h
    rw [decode] at h
    split at h
    next hread =>
      cases h
      exact length_lt_of_read hread
    next => cases h
  · intro hlength
    rw [decode_encode c absolute hlength]

/-- **Any history is read back.** A reader that starts with the writer's codec takes exactly the
bytes of the calls, gives the numbers of each term and ends with the writer's codec. From an
absolute term on, the bytes are those that any other codec would have written for the calls from
there, and any other reads them back. Reading takes that the numbers of each term can be counted. -/
theorem history_read_back (c : LongsCodec) (calls : List Call) :
    (Counted calls → ∀ (position : Nat) (trailing : Bytes),
      c.reads ⟨position, (c.write calls).1 ++ trailing⟩ (calls.map Call.cue)
        = ((calls.filterMap Call.longs?).map .ok, (c.write calls).2,
          ⟨position + (c.write calls).1.length, trailing⟩)) ∧
    ∀ (before later : List Call) (longs : List UInt64),
      calls = before ++ .term true longs :: later →
      ∃ bs : Bytes, (c.write calls).1 = (c.write before).1 ++ bs ∧
        ∀ other : LongsCodec, (other.write (.term true longs :: later)).1 = bs ∧
          (Counted (.term true longs :: later) → ∀ (position : Nat) (trailing : Bytes),
            other.reads ⟨position, bs ++ trailing⟩ (.term true :: later.map Call.cue)
              = ((longs :: later.filterMap Call.longs?).map .ok, (c.write calls).2,
                ⟨position + bs.length, trailing⟩)) := by
  refine ⟨fun hcount position trailing => reads_write calls c position trailing hcount, ?_⟩
  rintro before later longs rfl
  have hwrite := write_append before (.term true longs :: later) c
  rw [hwrite, write_absolute _ {}]
  refine ⟨_, rfl, fun other => ⟨?_, fun hcount position trailing => ?_⟩⟩
  · rw [write_absolute other {}]
  · rw [write_absolute {} other]
    exact reads_write (.term true longs :: later) other position trailing hcount

/-- Two fields; the terms of the second grow, shrink and wrap around, one of them absolute. -/
def restless : List Call :=
  [.term false [100, 7], .term false [140], .field, .term false [5, 6, 7],
    .term true [0xFFFFFFFFFFFFFFFF, 0], .term false [1, 0x8000000000000000, 9], .term false []]

/-- Calls from an absolute term on are read back by another codec. -/
theorem history_read_back_restless :
    Counted restless ∧ Counted (restless.drop 4) ∧
      (reads ⟨[3]⟩ ⟨0, (write ⟨[3]⟩ restless).1 ++ [255]⟩ (restless.map Call.cue)).1
        = [.ok [100, 7], .ok [140], .ok [5, 6, 7], .ok [0xFFFFFFFFFFFFFFFF, 0],
          .ok [1, 0x8000000000000000, 9], .ok []] ∧
      ∃ bs, (write ⟨[3]⟩ restless).1 = (write ⟨[3]⟩ (restless.take 4)).1 ++ bs ∧
        (reads ⟨[8, 8]⟩ ⟨0, bs ++ [255]⟩ ((restless.drop 4).map Call.cue)).1
          = [.ok [0xFFFFFFFFFFFFFFFF, 0], .ok [1, 0x8000000000000000, 9], .ok []] := by
  have hcount : Counted restless := by decide
  have hlast : Counted (restless.drop 4) := by decide
  obtain ⟨hall, hlater⟩ := history_read_back ⟨[3]⟩ restless
  obtain ⟨bs, hsplit, hreads⟩ := hlater (restless.take 4)
    [.term false [1, 0x8000000000000000, 9], .term false []] [0xFFFFFFFFFFFFFFFF, 0] rfl
  refine ⟨hcount, hlast, congrArg Prod.fst (hall hcount 0 [255]), bs, hsplit, ?_⟩
  exact congrArg Prod.fst ((hreads ⟨[8, 8]⟩).2 hlast 0 [255])

end Lexicon.LongsCodec

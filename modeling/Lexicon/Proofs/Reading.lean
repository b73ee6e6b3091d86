import Lexicon.Cursor
import Lexicon.Stream.Item

/-!
# Reads that take back what was written

`Read.Takes r bs a` says that `r` takes exactly the bytes `bs` off the front of whatever follows
them, at any place, and gives `a`. That is the one fact about a format that its users need: it
composes along `>>=` (`Takes.bind`), so the reader of a row of items takes the items' bytes one
after the other, and nothing has to be said of what stands behind them.

The second half of the file gives `Takes` for the items of which all formats are made.
-/

namespace Lexicon

/-! ## Varints -/

namespace Varint

/-- A number is never written as nothing. -/
theorem encode_ne_nil (n : Nat) : encode n ≠ [] := by
  rw [encode]
  split <;> simp

/-- A number of few enough bits is the group at the front of its own bytes. -/
theorem group_encode (n : Nat) :
    ∀ (limit : Nat) (rest : Bytes), n < 128 ^ (limit + 1) →
      group (limit + 1) (encode n ++ rest) = some (n, (encode n).length) := by
  induction n using Nat.strongRecOn with
  | ind n ih =>
    intro limit rest hn
    rw [encode]
    split
    next hlt =>
      have hbyte : (UInt8.ofNat n).toNat = n := by
        rw [UInt8.toNat_ofNat']
        omega
      rw [List.cons_append, group, hbyte, if_pos hlt]
      rfl
    next hge =>
      have hbyte : (UInt8.ofNat (n % 128 + 128)).toNat = n % 128 + 128 := by
        rw [UInt8.toNat_ofNat']
        omega
      rw [List.cons_append, group, hbyte, if_neg (by omega)]
      cases limit with
      | zero => omega
      | succ limit =>
        rw [ih (n / 128) (by omega) limit rest (by rw [Nat.pow_succ] at hn; omega)]
        simp only [Option.map_some, List.length_cons, Option.some.injEq, Prod.mk.injEq, and_true]
        omega

/-- A number that fits the width is read back, whatever follows it. -/
theorem decode_encode {width n : Nat} (hwidth : 0 < width) (hn : n < 2 ^ width) (rest : Bytes) :
    decode width (encode n ++ rest) = some (n, (encode n).length) := by
  obtain ⟨limit, hlimit⟩ : ∃ limit, maxLength width = limit + 1 :=
    ⟨(width + 6) / 7 - 1, by unfold maxLength; omega⟩
  have hroom : n < 128 ^ (limit + 1) := by
    have hpow : (128 : Nat) ^ (limit + 1) = 2 ^ (7 * (limit + 1)) := by
      rw [Nat.pow_mul]
    have hle : width ≤ 7 * (limit + 1) := by
      rw [← hlimit]
      unfold maxLength
      omega
    rw [hpow]
    exact Nat.lt_of_lt_of_le hn (Nat.pow_le_pow_right (by omega) hle)
  rw [decode, hlimit, group_encode n limit rest hroom]
  simp [Nat.mod_eq_of_lt hn]

/-- The group of a number below a power of 128 has no more bytes than the exponent. -/
theorem length_encode_le {n : Nat} :
    ∀ limit : Nat, n < 128 ^ (limit + 1) → (encode n).length ≤ limit + 1 := by
  induction n using Nat.strongRecOn with
  | ind n ih =>
    intro limit hn
    rw [encode]
    split
    next => simp
    next hge =>
      cases limit with
      | zero => omega
      | succ limit =>
        have := ih (n / 128) (by omega) limit (by rw [Nat.pow_succ] at hn; omega)
        rw [List.length_cons]
        omega

/-- A group grows more slowly than its number. -/
theorem length_encode_le_div (n : Nat) : (encode n).length ≤ 1 + n / 128 := by
  induction n using Nat.strongRecOn with
  | ind n ih =>
    rw [encode]
    split
    next => exact Nat.le_add_right ..
    next hge =>
      have := ih (n / 128) (by omega)
      rw [List.length_cons]
      omega

end Varint

/-- One step of a computation whose first part is known to succeed. -/
theorem bind_ok {ε σ α β : Type} {r : EStateM ε σ α} {f : α → EStateM ε σ β} {s s' : σ} {a : α}
    (h : r s = .ok a s') : (r >>= f) s = f a s' := by
  show EStateM.bind r f s = f a s'
  rw [EStateM.bind, h]

/-- A computation whose first part is known to fail. -/
theorem bind_error {ε σ α β : Type} {r : EStateM ε σ α} {f : α → EStateM ε σ β} {s s' : σ} {e : ε}
    (h : r s = .error e s') : (r >>= f) s = .error e s' := by
  show EStateM.bind r f s = .error e s'
  rw [EStateM.bind, h]

/-- A computation that gives a value is one step after the other. -/
theorem exists_of_bind_ok {ε σ α β : Type} {r : EStateM ε σ α} {f : α → EStateM ε σ β} {s s' : σ}
    {b : β} (h : (r >>= f) s = .ok b s') : ∃ a mid, r s = .ok a mid ∧ f a mid = .ok b s' := by
  cases hfirst : r s with
  | error e mid =>
    rw [bind_error hfirst] at h
    cases h
  | ok a mid =>
    rw [bind_ok hfirst] at h
    exact ⟨a, mid, rfl, h⟩

/-- A step that succeeds hands its result to the next. -/
theorem ok_bind {ε α β : Type} (a : α) (f : α → Except ε β) : (Except.ok a >>= f) = f a := rfl

/-- The first part of a computation that gives a value gives one. -/
theorem of_bind_eq_ok {ε α β : Type} {x : Except ε α} {f : α → Except ε β} {b : β}
    (h : x >>= f = .ok b) : ∃ a, x = .ok a ∧ f a = .ok b := by
  cases x with
  | error e => exact absurd h (by simp [bind, Except.bind])
  | ok a => exact ⟨a, rfl, h⟩

/-- What is made of a result does not touch the state. -/
theorem map_ok {ε σ α β : Type} {r : EStateM ε σ α} {f : α → β} {s s' : σ} {a : α}
    (h : r s = .ok a s') : (f <$> r) s = .ok (f a) s' := by
  show EStateM.map f r s = .ok (f a) s'
  rw [EStateM.map, h]

/-! ## Taking bytes off the front -/

namespace Read

variable {α β : Type}

/-- The read takes exactly these bytes off the front, whatever follows them, and gives the value. -/
def Takes (r : Read α) (bs : Bytes) (a : α) : Prop :=
  ∀ (position : Nat) (rest : Bytes),
    r ⟨position, bs ++ rest⟩ = .ok a ⟨position + bs.length, rest⟩

theorem takes_pure (a : α) : Takes (pure a) [] a := fun _ _ => rfl

/-- One read after the other takes their bytes one after the other. -/
theorem Takes.bind {r : Read α} {f : α → Read β} {bs cs : Bytes} {a : α} {b : β}
    (hr : Takes r bs a) (hf : Takes (f a) cs b) : Takes (r >>= f) (bs ++ cs) b := by
  intro position rest
  rw [List.append_assoc, bind_ok (hr position (cs ++ rest)), hf (position + bs.length) rest,
    List.length_append, Nat.add_assoc]

/-- What is made of the result takes the same bytes. -/
theorem Takes.map {r : Read α} {bs : Bytes} {a : α} (hr : Takes r bs a) (f : α → β) :
    Takes (f <$> r) bs (f a) :=
  fun position rest => map_ok (hr position rest)

/-- A last step that takes nothing. -/
theorem Takes.bind_last {r : Read α} {f : α → Read β} {bs : Bytes} {a : α} {b : β}
    (hr : Takes r bs a) (hf : Takes (f a) [] b) : Takes (r >>= f) bs b := by
  simpa using hr.bind hf

/-- A last step that makes the value. -/
theorem Takes.bind_pure {r : Read α} {f : α → β} {bs : Bytes} {a : α} (hr : Takes r bs a) :
    Takes (r >>= fun x => pure (f x)) bs (f a) :=
  hr.bind_last (takes_pure (f a))

/-- A read at the start of its bytes. -/
theorem Takes.run {r : Read α} {bs : Bytes} {a : α} (h : Takes r bs a) (rest : Bytes) :
    r.run (bs ++ rest) = .ok (a, ⟨bs.length, rest⟩) := by
  have hstart : r (Cursor.start (bs ++ rest)) = .ok a ⟨bs.length, rest⟩ := by
    have := h 0 rest
    rwa [Nat.zero_add] at this
  rw [Read.run, EStateM.run, hstart]

/-- A run that succeeds is a read that succeeds from the start of the data. -/
theorem of_run_eq_ok {r : Read α} {data : Bytes} {a : α} {c : Cursor}
    (h : r.run data = .ok (a, c)) :
    r (Cursor.start data) = .ok a c := by
  rw [Read.run] at h
  split at h <;> cases h
  assumption

/-- A read at a place inside a byte string. -/
theorem Takes.runAt {r : Read α} {bs : Bytes} {a : α} (h : Takes r bs a) (before rest : Bytes) :
    r.runAt (before ++ (bs ++ rest)) before.length = .ok a := by
  have hat : Cursor.at? (before ++ (bs ++ rest)) before.length
      = .ok ⟨before.length, bs ++ rest⟩ := by
    rw [Cursor.at?, if_pos (by simp), List.drop_left]
  have hrun : EStateM.run r ⟨before.length, bs ++ rest⟩
      = .ok a ⟨before.length + bs.length, rest⟩ := h before.length rest
  simp only [Read.runAt, hat, Bind.bind, Except.bind, hrun]
  rfl

/-! ## Reads that go on -/

/-- The read takes exactly these bytes off the front, whatever follows them, and goes on as another.
-/
def Leads (r : Read α) (bs : Bytes) (next : Read α) : Prop :=
  ∀ (position : Nat) (rest : Bytes),
    r ⟨position, bs ++ rest⟩ = next ⟨position + bs.length, rest⟩

theorem Leads.takes {r : Read α} {bs : Bytes} {a : α} (h : Leads r bs (pure a)) : Takes r bs a := h

/-- One step in front of whatever follows, where the value may tell the place. -/
theorem Takes.step {r : Read α} {bs : Bytes} {a : α} (hr : Takes r bs a) (f : α → Read β) :
    Leads (r >>= f) bs (f a) :=
  fun position rest => bind_ok (hr position rest)

/-- A read whose value is known can be followed by one that goes on. -/
theorem Takes.bind_leads {r : Read α} {f : α → Read β} {bs cs : Bytes} {a : α} {next : Read β}
    (hr : Takes r bs a) (hf : Leads (f a) cs next) : Leads (r >>= f) (bs ++ cs) next := by
  intro position rest
  rw [List.append_assoc, bind_ok (hr position (cs ++ rest)), hf (position + bs.length) rest,
    List.length_append, Nat.add_assoc]

/-- A read that goes on takes what it took and what is taken next. -/
theorem Leads.then_takes {r next : Read α} {bs cs : Bytes} {a : α} (hr : Leads r bs next)
    (hnext : Takes next cs a) : Takes r (bs ++ cs) a := by
  intro position rest
  rw [List.append_assoc, hr position (cs ++ rest), hnext (position + bs.length) rest,
    List.length_append, Nat.add_assoc]

/-! ## Reads that fail -/

/-- The read fails on these bytes, whatever follows them. -/
def Fails (r : Read α) (bs : Bytes) (e : Error) : Prop :=
  ∀ (position : Nat) (rest : Bytes), ∃ c, r ⟨position, bs ++ rest⟩ = .error e c

theorem Leads.fails {r : Read α} {bs : Bytes} {e : Error} (h : Leads r bs (throw e)) :
    Fails r bs e :=
  fun position rest => ⟨_, h position rest⟩

/-- A read that fails does so whatever was to come. -/
theorem Fails.bind {r : Read α} {bs : Bytes} {e : Error} (h : Fails r bs e) (f : α → Read β)
    (cs : Bytes) : Fails (r >>= f) (bs ++ cs) e := by
  intro position rest
  obtain ⟨c, hread⟩ := h position (cs ++ rest)
  rw [List.append_assoc]
  exact ⟨c, bind_error hread⟩

/-- A read fails if it fails once its first part is taken. -/
theorem Takes.bind_fails {r : Read α} {f : α → Read β} {bs cs : Bytes} {a : α} {e : Error}
    (hr : Takes r bs a) (hf : Fails (f a) cs e) : Fails (r >>= f) (bs ++ cs) e := by
  intro position rest
  rw [List.append_assoc, bind_ok (hr position (cs ++ rest))]
  exact hf (position + bs.length) rest

/-- A last step that would have made a value. -/
theorem Fails.bind_pure {r : Read α} {f : α → β} {bs : Bytes} {e : Error} (h : Fails r bs e) :
    Fails (r >>= fun x => pure (f x)) bs e := by
  simpa using h.bind (fun x => pure (f x)) []

theorem fails_corrupt (cause : Corruption) (bs : Bytes) :
    Fails (corrupt cause : Read α) bs (.corrupt cause) :=
  fun _ _ => ⟨_, rfl⟩

/-- A read that fails at the start of its bytes. -/
theorem Fails.run {r : Read α} {bs : Bytes} {e : Error} (h : Fails r bs e) :
    r.run bs = .error e := by
  obtain ⟨c, hread⟩ := h 0 []
  have hstart : r (Cursor.start bs) = .error e c := by rwa [List.append_nil] at hread
  rw [Read.run, EStateM.run, hstart]

/-! ## What a read gives -/

/-- Whatever the read gives has the property. -/
def Gives (r : Read α) (P : α → Prop) : Prop := ∀ c a c', r c = .ok a c' → P a

theorem gives_pure {P : α → Prop} {a : α} (h : P a) : Gives (pure a) P := by
  intro c b c' hread
  cases hread
  exact h

theorem gives_throw {P : α → Prop} (e : Error) : Gives (throw e) P := by
  intro c a c' hread
  cases hread

/-- What a read gives is known from what its parts give. -/
theorem Gives.bind {r : Read α} {f : α → Read β} {P : α → Prop} {Q : β → Prop} (hr : Gives r P)
    (hf : ∀ a, P a → Gives (f a) Q) : Gives (r >>= f) Q := by
  intro c b c' hread
  obtain ⟨a, mid, hfirst, hrest⟩ := exists_of_bind_ok hread
  exact hf a (hr c a mid hfirst) mid b c' hrest

/-- What is made of the result is known from the result. -/
theorem Gives.map {r : Read α} {f : α → β} {P : α → Prop} {Q : β → Prop} (hr : Gives r P)
    (hf : ∀ a, P a → Q (f a)) : Gives (f <$> r) Q := by
  rw [map_eq_pure_bind]
  exact hr.bind fun a ha => gives_pure (hf a ha)

/-- Nothing is said of the value. -/
theorem gives_any (r : Read α) : Gives r fun _ => True := fun _ _ _ _ => trivial

/-- A number that is read fits its width. -/
theorem gives_varint (width : Nat) (malformed : Nat → Corruption) :
    Gives (varint width malformed) (· < 2 ^ width) := by
  intro c n c' hread
  rw [varint] at hread
  cases hdecode : Varint.decode width c.rest with
  | none => simp [hdecode] at hread
  | some found =>
    obtain ⟨m, length⟩ := found
    simp only [hdecode, EStateM.Result.ok.injEq] at hread
    obtain ⟨rfl, -⟩ := hread
    rw [Varint.decode, Option.map_eq_some_iff] at hdecode
    obtain ⟨⟨spelled, _⟩, -, heq⟩ := hdecode
    rw [← (Prod.mk.inj heq).1]
    exact Nat.mod_lt _ (Nat.two_pow_pos width)

/-- As many bytes are read as were asked for. -/
theorem gives_bytes (n : Nat) : Gives (bytes n) (·.length = n) := by
  intro c bs c' hread
  rw [bytes] at hread
  split at hread
  next hlength =>
    cases hread
    exact hlength
  next => cases hread

/-- A string that is read has a length of 32 bits. -/
theorem gives_block : Gives block (·.length < 2 ^ 32) :=
  (gives_varint 32 _).bind fun n hn c bs c' hread => gives_bytes n c bs c' hread ▸ hn

/-! ## The items -/

theorem takes_byte (b : UInt8) : Takes byte [b] b := fun _ _ => rfl

/-- Bytes are taken as they are. -/
theorem takes_bytes (bs : Bytes) : Takes (bytes bs.length) bs bs := by
  intro position rest
  have hfront : (bs ++ rest).take bs.length = bs := List.take_left
  simp only [bytes, hfront, if_pos, Cursor.advance, List.drop_left]

/-- A number that fits the width is taken. -/
theorem takes_varint {width n : Nat} (malformed : Nat → Corruption) (hwidth : 0 < width)
    (hn : n < 2 ^ width) : Takes (varint width malformed) (Varint.encode n) n := by
  intro position rest
  simp only [varint, Varint.decode_encode hwidth hn rest, Cursor.advance, List.drop_left]

theorem takes_vint {n : Nat} (hn : n < 2 ^ 32) : Takes vint (Varint.encode n) n :=
  takes_varint _ (by omega) hn

theorem takes_vlong {n : Nat} (hn : n < 2 ^ 64) : Takes vlong (Varint.encode n) n :=
  takes_varint _ (by omega) hn

/-- A word is taken that has its bytes in little-endian order. -/
theorem takes_word {width n : Nat} (hn : n < 256 ^ width) :
    Takes (word width) (Bytes.littleEndian width n) n := by
  have hbytes : Takes (bytes width) (Bytes.littleEndian width n) (Bytes.littleEndian width n) := by
    simpa [Bytes.length_littleEndian] using takes_bytes (Bytes.littleEndian width n)
  have hvalue := hbytes.map Bytes.ofLittleEndian
  rwa [Bytes.ofLittleEndian_littleEndian, Nat.mod_eq_of_lt hn] at hvalue

/-- A string is taken behind its length. -/
theorem takes_block {bs : Bytes} (hbs : bs.length < 2 ^ 32) :
    Takes block (Varint.encode bs.length ++ bs) bs :=
  (takes_vint hbs).bind (takes_bytes bs)

end Read

/-! ## The bytes of items -/

namespace Item

/-- A number of 32 bits is written as it is. -/
theorem encode_nat32 {n : Nat} (hn : n < 2 ^ 32) : (nat32 n).encode = Varint.encode n := by
  rw [nat32, encode, UInt32.toNat_ofNat', Nat.mod_eq_of_lt hn]

theorem encode_nat64 {n : Nat} (hn : n < 2 ^ 64) : (nat64 n).encode = Varint.encode n := by
  rw [nat64, encode, UInt64.toNat_ofNat', Nat.mod_eq_of_lt hn]

/-- A string is written behind its length, if that has 32 bits. -/
theorem encode_block {bs : Bytes} (hbs : bs.length < 2 ^ 32) :
    (block bs).encode = Varint.encode bs.length ++ bs := by
  rw [encode, UInt32.toNat_ofNat', Nat.mod_eq_of_lt hbs]

@[simp]
theorem encodeAll_nil : encodeAll [] = [] := rfl

@[simp]
theorem encodeAll_cons (item : Item) (items : List Item) :
    encodeAll (item :: items) = item.encode ++ encodeAll items := by
  simp [encodeAll]

theorem encodeAll_singleton (item : Item) : encodeAll [item] = item.encode := by
  simp [encodeAll]

/-- Five bytes are enough for 32 bits. -/
theorem length_encode_vint (n : UInt32) : (vint n).encode.length ≤ 5 :=
  Varint.length_encode_le 4 (Nat.lt_of_lt_of_le n.toNat_lt (by decide))

theorem length_encode_vlong (n : UInt64) : (vlong n).encode.length ≤ 10 :=
  Varint.length_encode_le 9 (Nat.lt_of_lt_of_le n.toNat_lt (by decide))

theorem length_encode_nat32 (n : Nat) : (nat32 n).encode.length ≤ 5 := length_encode_vint _

theorem length_encode_nat64 (n : Nat) : (nat64 n).encode.length ≤ 10 := length_encode_vlong _

/-- A string takes five bytes more than it has. -/
theorem length_encode_block (bs : Bytes) : (block bs).encode.length ≤ bs.length + 5 := by
  have hcount := length_encode_vint (UInt32.ofNat bs.length)
  rw [encode, List.length_append, Nat.add_comm]
  exact Nat.add_le_add_left hcount _

end Item

namespace Read

/-- The item of a number of 32 bits is taken. -/
theorem takes_vint_item (n : UInt32) : Takes vint (Item.vint n).encode n.toNat :=
  takes_vint n.toNat_lt

theorem takes_vlong_item (n : UInt64) : Takes vlong (Item.vlong n).encode n.toNat :=
  takes_vlong n.toNat_lt

theorem takes_nat32 {n : Nat} (hn : n < 2 ^ 32) : Takes vint (Item.nat32 n).encode n := by
  rw [Item.encode_nat32 hn]
  exact takes_vint hn

/-- Of a number of more bits the low ones are read. -/
theorem takes_nat32_mod (n : Nat) : Takes vint (Item.nat32 n).encode (n % 2 ^ 32) := by
  have htakes := takes_vint_item (UInt32.ofNat n)
  rwa [UInt32.toNat_ofNat'] at htakes

theorem takes_nat64 {n : Nat} (hn : n < 2 ^ 64) : Takes vlong (Item.nat64 n).encode n := by
  rw [Item.encode_nat64 hn]
  exact takes_vlong hn

/-- The item of a string is taken. -/
theorem takes_block_item {bs : Bytes} (hbs : bs.length < 2 ^ 32) :
    Takes block (Item.block bs).encode bs := by
  rw [Item.encode_block hbs]
  exact takes_block hbs

end Read

end Lexicon

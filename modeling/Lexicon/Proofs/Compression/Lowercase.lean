import Lexicon.Compression.Lowercase
import Lexicon.Proofs.Bits
import Lexicon.Proofs.Order
import Lexicon.Proofs.Reading

/-!
# Packed lower-case text is restored

`Lowercase.takes_unpack`: a reader takes exactly the packed text and gives back the text, exceptions
included. Six bits stand for every byte that is `packable` (`ofCode_code`); the others are put back
one after the other, so after `n` of them everything before the next one is right
(`patch_exceptions`).

The number of exceptions and the distances between them are words of 32 bits. `Measured` says that
they fit, which every text does that is shorter than four gigabytes.

> **`Lowercase.decompress_pack_iff`** — a text is restored just if it is measured;
> **`Lowercase.length_pack_lt`** — and packing makes every text shorter that is tried at all.
-/

namespace Lexicon.Lowercase

open Read

/-- Six bits tell the packable bytes apart. -/
theorem ofCode_code {b : UInt8} (h : packable b = true) : ofCode (code b) = b := by
  have hlt := b.toNat_lt
  have hrow : (b.toNat + 1) / 32 = 1 ∨ (b.toNat + 1) / 32 = 3 := by
    simpa [packable] using h
  apply UInt8.toNat_inj.mp
  simp only [ofCode, code, UInt8.toNat_ofNat']
  omega

/-- Six bits always stand for a packable byte. -/
theorem packable_ofCode (c : Nat) : packable (ofCode c) = true := by
  have hsmall : c % 32 + 32 + 64 * (c / 32 % 2) - 1 < 2 ^ 8 := by omega
  have hrow : (c % 32 + 32 + 64 * (c / 32 % 2) - 1 + 1) / 32 = 1 ∨
      (c % 32 + 32 + 64 * (c / 32 % 2) - 1 + 1) / 32 = 3 := by omega
  rw [packable, ofCode, UInt8.toNat_ofNat', Nat.mod_eq_of_lt hsmall]
  simpa using hrow

/-- A byte is packed in six bits. -/
theorem code_lt (b : UInt8) : code b < 2 ^ 6 := by
  show (b.toNat + 1) % 32 + 32 * ((b.toNat + 1) / 64 % 2) < 2 ^ 6
  omega

/-- The bytes that the bits alone stand for. -/
def approximate (input : Bytes) : Bytes := input.map fun b => ofCode (code b)

/-- A text is packed as a row of codes of one width. -/
theorem encode_codes (input : Bytes) :
    Packed.encode (input.map fun b => (code b, 6))
      = Packed.pack ((input.map code).flatMap (Packed.bits 6)) := by
  rw [Packed.encode, List.flatMap_map, List.flatMap_map]

/-- The packed bits are those of the approximation. -/
theorem ofBits_codes (input : Bytes) (rest : List Bool) :
    ofBits input.length ((input.map code).flatMap (Packed.bits 6) ++ rest)
      = approximate input := by
  induction input with
  | nil => rfl
  | cons b input ih =>
    rw [List.map_cons, List.flatMap_cons, List.append_assoc, List.length_cons, ofBits,
      List.take_left' (Packed.length_bits 6 _), List.drop_left' (Packed.length_bits 6 _), ih,
      Packed.ofBits_bits, Nat.mod_eq_of_lt (code_lt b)]
    rfl

/-! ## Exceptions -/

/-- An exception is at a place of the input. -/
theorem le_of_mem_exceptions {input : Bytes} :
    ∀ {place : Nat}, ∀ e ∈ exceptions place input,
      place ≤ e.1 ∧ e.1 < place + input.length := by
  induction input with
  | nil => intro place e he; exact absurd he (by simp [exceptions])
  | cons b input ih =>
    intro place e he
    rw [List.length_cons]
    rw [exceptions] at he
    split at he
    next =>
      have := ih e he
      omega
    next =>
      rcases List.mem_cons.mp he with rfl | he
      · exact ⟨Nat.le_refl _, by show place < _; omega⟩
      · have := ih e he
        omega

/-- An exception is the byte at its place, which is not packable. -/
theorem getElem?_of_mem_exceptions {input : Bytes} :
    ∀ {place : Nat}, ∀ e ∈ exceptions place input,
      input[e.1 - place]? = some e.2 ∧ packable e.2 = false := by
  induction input with
  | nil => intro place e he; exact absurd he (by simp [exceptions])
  | cons b input ih =>
    intro place e he
    have hrest : e ∈ exceptions (place + 1) input →
        (b :: input)[e.1 - place]? = some e.2 ∧ packable e.2 = false := by
      intro he
      obtain ⟨hle, -⟩ := le_of_mem_exceptions e he
      rw [show e.1 - place = e.1 - (place + 1) + 1 by omega, List.getElem?_cons_succ]
      exact ih e he
    rw [exceptions] at he
    split at he
    next => exact hrest he
    next hpackable =>
      rcases List.mem_cons.mp he with rfl | he
      · rw [Nat.sub_self]
        exact ⟨rfl, Bool.eq_false_iff.mpr hpackable⟩
      · exact hrest he

/-- The places of exceptions increase. -/
theorem pairwise_exceptions (input : Bytes) :
    ∀ place, (exceptions place input).Pairwise fun a b => a.1 < b.1 := by
  induction input with
  | nil => intro place; exact .nil
  | cons b input ih =>
    intro place
    rw [exceptions]
    split
    next => exact ih (place + 1)
    next =>
      refine .cons (fun e he => ?_) (ih (place + 1))
      have := le_of_mem_exceptions e he
      show place < e.1
      omega

/-- If there is an exception, one is the last. -/
theorem exists_last {input : Bytes} {place : Nat} (h : exceptions place input ≠ []) :
    ∃ last ∈ exceptions place input, ∀ e ∈ exceptions place input, e.1 ≤ last.1 := by
  refine ⟨_, List.getLast_mem h, (pairwise_exceptions input place).of_last
    (fun x y hlt hle => Nat.le_of_lt (Nat.lt_of_lt_of_le hlt hle)) fun x hx => ?_⟩
  rw [List.getLast?_eq_some_getLast h] at hx
  cases hx
  exact Nat.le_refl _

/-- A byte outside of the two ranges that six bits stand for. -/
def foreign (b : UInt8) : Bool := !(0x1F ≤ b && b ≤ 0x3E || 0x5F ≤ b && b ≤ 0x7E)

/-- A byte is packable just if it is not foreign. -/
theorem packable_eq (b : UInt8) : packable b = !foreign b := by
  simp only [packable, foreign, UInt8.le_iff_toNat_le, Bool.not_not, ← Bool.decide_and,
    ← Bool.decide_or]
  rw [decide_eq_decide, show (0x1F : UInt8).toNat = 31 from rfl,
    show (0x3E : UInt8).toNat = 62 from rfl, show (0x5F : UInt8).toNat = 95 from rfl,
    show (0x7E : UInt8).toNat = 126 from rfl]
  omega

/-- There is an exception for each foreign byte. -/
theorem length_exceptions (input : Bytes) :
    ∀ place, (exceptions place input).length = input.countP foreign := by
  induction input with
  | nil => intro place; rfl
  | cons b input ih =>
    intro place
    rw [exceptions, List.countP_cons, packable_eq]
    cases foreign b
    · exact ih (place + 1)
    · exact congrArg (· + 1) (ih (place + 1))

/-- Putting bytes in their places. -/
def patch (out : Bytes) (exceptions : List (Nat × UInt8)) : Bytes :=
  exceptions.foldl (fun out e => out.set e.1 e.2) out

/-- Once the exceptions are in their places the text is the original one. -/
theorem patch_exceptions (input : Bytes) :
    ∀ before : Bytes, patch (before ++ approximate input) (exceptions before.length input)
      = before ++ input := by
  induction input with
  | nil => intro before; rfl
  | cons b input ih =>
    intro before
    have hrest := ih (before ++ [b])
    rw [List.length_append, List.length_singleton, List.append_assoc, List.append_assoc] at hrest
    rw [exceptions]
    split
    next hpackable =>
      rw [approximate, List.map_cons, ofCode_code hpackable]
      exact hrest
    next =>
      rw [patch, List.foldl_cons, approximate, List.map_cons]
      rw [show (before ++ ofCode (code b) :: input.map fun b => ofCode (code b)).set before.length b
          = before ++ b :: approximate input by
        rw [List.set_append_right _ _ (Nat.le_refl _), Nat.sub_self]
        rfl]
      exact hrest

/-- Each exception is so near to the one before that the distance fits a word of 32 bits; the first
distance is counted from the given place. -/
def Near (previous : Nat) : List (Nat × UInt8) → Prop
  | [] => True
  | (place, _) :: rest => place - previous < 2 ^ 32 ∧ Near place rest

/-- The number of exceptions and the distances between them fit words of 32 bits. -/
structure Measured (input : Bytes) : Prop where
  count : (exceptions 0 input).length < 2 ^ 32
  near : Near 0 (exceptions 0 input)

/-- Exceptions within 32 bits are near what went before. -/
theorem near_of_lt {exceptions : List (Nat × UInt8)} (h : ∀ e ∈ exceptions, e.1 < 2 ^ 32) :
    ∀ previous, Near previous exceptions := by
  induction exceptions with
  | nil => exact fun _ => trivial
  | cons e exceptions ih =>
    intro previous
    have hplace := h e (List.mem_cons_self ..)
    exact ⟨by omega, ih (fun x hx => h x (List.mem_cons_of_mem _ hx)) e.1⟩

/-- A text whose length fits a word is measured. -/
theorem measured_of_length_lt {input : Bytes} (h : input.length < 2 ^ 32) : Measured input where
  count := by
    rw [length_exceptions]
    exact Nat.lt_of_le_of_lt List.countP_le_length h
  near := near_of_lt (fun e he => by have := le_of_mem_exceptions e he; omega) 0

/-- One exception is put where the reader gets to: its distance is read as a word. -/
theorem leads_restore (out : Array UInt8) {place distance : Nat} (b : UInt8) (count : Nat)
    (h : place + distance % 2 ^ 32 < out.size) :
    Leads (restore out place (count + 1)) ((Item.nat32 distance).encode ++ (Item.byte b).encode)
      (restore (out.set (place + distance % 2 ^ 32) b h) (place + distance % 2 ^ 32) count) := by
  have hbyte := (takes_byte b).step fun b =>
    if h : place + distance % 2 ^ 32 < out.size then
      restore (out.set (place + distance % 2 ^ 32) b h) (place + distance % 2 ^ 32) count
    else Read.corrupt (.exceptionBeyond (place + distance % 2 ^ 32) out.size)
  rw [dif_pos h] at hbyte
  rw [restore]
  exact (takes_nat32_mod distance).bind_leads hbyte

/-- Reading exceptions puts them in their places. -/
theorem takes_restore (exceptions : List (Nat × UInt8)) :
    ∀ (out : Bytes) (place : Nat), Near place exceptions →
      (∀ e ∈ exceptions, place ≤ e.1 ∧ e.1 < out.length) →
      exceptions.Pairwise (fun a b => a.1 < b.1) →
      Takes (restore out.toArray place exceptions.length)
        (Item.encodeAll (exceptionItems place exceptions)) (patch out exceptions).toArray := by
  induction exceptions with
  | nil => intro out place _ _ _; exact takes_pure _
  | cons e exceptions ih =>
    obtain ⟨at', b⟩ := e
    intro out place ⟨hgap, hnear⟩ hplaces hsorted
    obtain ⟨hle, hlt⟩ := hplaces (at', b) (List.mem_cons_self ..)
    simp only at hle hlt
    rw [List.pairwise_cons] at hsorted
    have hrest := ih (out.set at' b) at' hnear
      (fun e he => ⟨Nat.le_of_lt (hsorted.1 e he), by
        rw [List.length_set]
        exact (hplaces e (List.mem_cons_of_mem _ he)).2⟩) hsorted.2
    have hplace : place + (at' - place) % 2 ^ 32 = at' := by
      rw [Nat.mod_eq_of_lt hgap]
      omega
    have hput := leads_restore out.toArray b exceptions.length
      (by rw [hplace]; simpa using hlt)
    simp only [hplace, List.set_toArray] at hput
    rw [exceptionItems, Item.encodeAll_cons, Item.encodeAll_cons, List.length_cons,
      ← List.append_assoc]
    exact hput.then_takes hrest

/-- A reader that is behind, or falls behind, or stops before the last exception, leaves the place
of the last one as it is. -/
theorem restore_behind (exceptions : List (Nat × UInt8)) :
    ∀ (out : Array UInt8) (heard place count last : Nat), heard ≤ place →
      count ≤ exceptions.length → (∀ e ∈ exceptions, place ≤ e.1 ∧ e.1 ≤ last) →
      exceptions.Pairwise (fun a b => a.1 < b.1) → last < out.size →
      (heard < place ∨ ¬ Near place exceptions ∨ count < exceptions.length) →
      ∀ (position : Nat) (rest : Bytes), ∃ out' c,
        restore out heard count
            ⟨position, Item.encodeAll (exceptionItems place exceptions) ++ rest⟩ = .ok out' c ∧
          out'[last]? = out[last]? := by
  induction exceptions with
  | nil =>
    intro out heard place count last _ hcount _ _ _ _ position rest
    obtain rfl := Nat.le_zero.mp hcount
    exact ⟨out, _, rfl, rfl⟩
  | cons e exceptions ih =>
    obtain ⟨next, b⟩ := e
    intro out heard place count last hheard hcount hplaces hsorted hlast hbehind position rest
    cases count with
    | zero => exact ⟨out, _, rfl, rfl⟩
    | succ count =>
      obtain ⟨hle, hnext⟩ := hplaces (next, b) (List.mem_cons_self ..)
      obtain ⟨hfirst, hsorted⟩ := List.pairwise_cons.mp hsorted
      simp only [List.length_cons, Near] at hle hnext hcount hbehind hfirst
      have hmod := Nat.mod_le (next - place) (2 ^ 32)
      have hstill : heard + (next - place) % 2 ^ 32 < next ∨ ¬ Near next exceptions ∨
          count < exceptions.length := by
        by_cases hgap : next - place < 2 ^ 32
        · rw [Nat.mod_eq_of_lt hgap]
          rcases hbehind with hlt | hfar | hfew
          · omega
          · exact .inr (.inl fun hnear => hfar ⟨hgap, hnear⟩)
          · omega
        · have := Nat.mod_lt (next - place) (show 0 < 2 ^ 32 by decide)
          omega
      -- if the reader has kept up so far, this exception is not the last one
      have hput : heard + (next - place) % 2 ^ 32 < last := by
        rcases hstill with hlt | hmore
        · omega
        · cases exceptions with
          | nil => exact absurd hmore (by simp [Near])
          | cons e _ =>
            have := hfirst e (List.mem_cons_self ..)
            have := (hplaces e (by simp)).2
            omega
      have hsize := Nat.lt_trans hput hlast
      obtain ⟨out', c, hrest, hkept⟩ := ih (out.set _ b hsize) _ next count last (by omega)
        (by omega)
        (fun x hx => ⟨Nat.le_of_lt (hfirst x hx), (hplaces x (List.mem_cons_of_mem _ hx)).2⟩)
        hsorted (by rwa [Array.size_set]) hstill
        (position + ((Item.nat32 (next - place)).encode ++ (Item.byte b).encode).length) rest
      refine ⟨out', c, ?_, hkept.trans (Array.getElem?_set_ne hsize (by omega))⟩
      rw [exceptionItems, Item.encodeAll_cons, Item.encodeAll_cons, ← List.append_assoc,
        List.append_assoc, leads_restore out b count hsize position]
      exact hrest

/-! ## The whole text -/

/-- The packed codes are as long as the reader expects. -/
theorem takes_codes (input : Bytes) :
    Takes (Read.bytes (Packed.length input.length 6))
      (Packed.encode (input.map fun b => (code b, 6)))
      (Packed.encode (input.map fun b => (code b, 6))) := by
  have htakes := takes_bytes (Packed.encode (input.map fun b => (code b, 6)))
  rwa [encode_codes, Packed.length_pack, Packed.length_flatMap_bits, List.length_map,
    ← Packed.length, ← encode_codes] at htakes

/-- What the packed codes alone say of the text. -/
theorem ofBits_unpack (input : Bytes) :
    ofBits input.length (Packed.unpack (Packed.encode (input.map fun b => (code b, 6))))
      = approximate input := by
  rw [encode_codes, Packed.unpack_pack, ofBits_codes]

/-- After the bits and the number of exceptions, the exceptions are put in their places. -/
theorem leads_unpack (input : Bytes) (count : Nat) :
    Leads (unpack input.length)
      (Packed.encode (input.map fun b => (code b, 6)) ++ (Item.nat32 count).encode)
      (restore (approximate input).toArray 0 (count % 2 ^ 32) >>= fun out => pure out.toList) := by
  rw [unpack]
  refine (takes_codes input).bind_leads ?_
  simp only [ofBits_unpack]
  exact (takes_nat32_mod count).step _

/-- **A packed text is restored.** -/
theorem takes_unpack {input : Bytes} (h : Measured input) :
    Takes (unpack input.length) (pack input) input := by
  have hrestore := takes_restore (exceptions 0 input) (approximate input) 0 h.near
    (fun e he => by
      have := le_of_mem_exceptions e he
      rw [approximate, List.length_map]
      omega)
    (pairwise_exceptions input 0)
  have hpatch := patch_exceptions input []
  simp only [List.nil_append, List.length_nil] at hpatch
  rw [hpatch] at hrestore
  have hleads := leads_unpack input (exceptions 0 input).length
  rw [Nat.mod_eq_of_lt h.count] at hleads
  rw [pack, Item.encodeAll_cons, ← List.append_assoc]
  exact hleads.then_takes (hrestore.bind_pure (f := Array.toList))

/-- **A text is restored just if it is measured.** Otherwise the reader does not get as far as the
last exception, and the bits alone say of its place that it is packable. -/
theorem decompress_pack_iff {input : Bytes} :
    decompress (pack input) input.length = .ok input ↔ Measured input := by
  constructor
  · intro h
    by_contra hnot
    have hne : exceptions 0 input ≠ [] := by
      intro hnil
      exact hnot ⟨by rw [hnil]; decide, by rw [hnil]; trivial⟩
    obtain ⟨last, hlast, hmax⟩ := exists_last hne
    obtain ⟨hbyte, hforeign⟩ := getElem?_of_mem_exceptions last hlast
    have hsize : last.1 < (approximate input).toArray.size := by
      have := le_of_mem_exceptions last hlast
      rw [List.size_toArray, approximate, List.length_map]
      omega
    have hbehind : ¬ Near 0 (exceptions 0 input) ∨
        (exceptions 0 input).length % 2 ^ 32 < (exceptions 0 input).length := by
      by_cases hcount : (exceptions 0 input).length < 2 ^ 32
      · exact .inl fun hnear => hnot ⟨hcount, hnear⟩
      · have := Nat.mod_lt (exceptions 0 input).length (show 0 < 2 ^ 32 by decide)
        omega
    obtain ⟨out, c, hrestore, hkept⟩ := restore_behind (exceptions 0 input)
      (approximate input).toArray 0 0 ((exceptions 0 input).length % 2 ^ 32) last.1 (Nat.le_refl 0)
      (Nat.mod_le ..) (fun e he => ⟨Nat.zero_le _, hmax e he⟩) (pairwise_exceptions input 0) hsize
      (.inr hbehind) (0 + (Packed.encode (input.map fun b => (code b, 6))
        ++ (Item.nat32 (exceptions 0 input).length).encode).length) []
    have hrun : unpack input.length (Cursor.start (pack input)) = .ok out.toList c := by
      rw [List.append_nil] at hrestore
      rw [Cursor.start, pack, Item.encodeAll_cons, ← List.append_assoc, leads_unpack input _ 0 _,
        bind_ok hrestore]
      rfl
    rw [decompress, Read.run, EStateM.run, hrun] at h
    obtain rfl := Except.ok.inj h
    rw [Nat.sub_zero, Array.getElem?_toList, hkept, List.getElem?_toArray, approximate,
      List.getElem?_map] at hbyte
    obtain ⟨b, -, hcode⟩ := Option.map_eq_some_iff.mp hbyte
    rw [← hcode, packable_ofCode] at hforeign
    cases hforeign
  · intro h
    have hrun := (takes_unpack h).run []
    rw [List.append_nil] at hrun
    rw [decompress, hrun]
    rfl

/-! ## Packing pays -/

/-- An exception takes two bytes, and two more where the one before it is far. -/
theorem length_exceptionItems_le (exceptions : List (Nat × UInt8)) : ∀ previous stop : Nat,
    previous ≤ stop → (∀ e ∈ exceptions, previous ≤ e.1 ∧ e.1 < stop) →
      exceptions.Pairwise (fun a b => a.1 < b.1) →
      (Item.encodeAll (exceptionItems previous exceptions)).length
        ≤ 2 * exceptions.length + (stop - previous) / 128 := by
  induction exceptions with
  | nil => intro previous stop _ _ _; exact Nat.zero_le _
  | cons e exceptions ih =>
    obtain ⟨place, b⟩ := e
    intro previous stop _ hplaces hsorted
    obtain ⟨hle, hlt⟩ := hplaces (place, b) (List.mem_cons_self ..)
    obtain ⟨hfirst, hsorted⟩ := List.pairwise_cons.mp hsorted
    simp only at hle hlt
    have hrest := ih place stop (Nat.le_of_lt hlt) (fun x hx =>
      ⟨Nat.le_of_lt (hfirst x hx), (hplaces x (List.mem_cons_of_mem _ hx)).2⟩) hsorted
    have hgroup := Varint.length_encode_le_div (UInt32.ofNat (place - previous)).toNat
    have hword := Nat.mod_le (place - previous) (2 ^ 32)
    rw [UInt32.toNat_ofNat'] at hgroup
    rw [exceptionItems, Item.encodeAll_cons, Item.encodeAll_cons, List.length_append,
      List.length_append, List.length_cons, Item.nat32, Item.encode, Item.encode,
      List.length_singleton, UInt32.toNat_ofNat']
    omega

/-- **A text that is long enough and has few exceptions gets shorter.** -/
theorem length_pack_lt {input : Bytes} (hlong : 8 ≤ input.length)
    (hfew : (exceptions 0 input).length ≤ input.length / 32) :
    (pack input).length < input.length := by
  have hitems := length_exceptionItems_le (exceptions 0 input) 0 input.length (Nat.zero_le _)
    (fun e he => by have := le_of_mem_exceptions e he; omega) (pairwise_exceptions input 0)
  have hgroup := Varint.length_encode_le_div (UInt32.ofNat (exceptions 0 input).length).toNat
  have hword := Nat.mod_le (exceptions 0 input).length (2 ^ 32)
  rw [UInt32.toNat_ofNat'] at hgroup
  rw [pack, encode_codes, Item.encodeAll_cons, List.length_append, List.length_append,
    Packed.length_pack, Packed.length_flatMap_bits, List.length_map, Item.nat32, Item.encode,
    UInt32.toNat_ofNat']
  omega

/-- A text is packed only where that makes it shorter. -/
theorem compress_eq_some {input packed : Bytes} (h : compress input = some packed) :
    pack input = packed ∧ packed.length < input.length := by
  rw [compress] at h
  split at h
  next => exact absurd h (by simp)
  next =>
    simp only at h
    split at h
    next hshorter =>
      obtain rfl := Option.some.inj h
      exact ⟨rfl, hshorter⟩
    next => exact absurd h (by simp)

/-- What is too short, has too many exceptions or gains nothing is not compressed. -/
theorem compress_eq_none_iff {input : Bytes} : compress input = none ↔ input.length < 8 ∨
    input.length / 32 < input.countP foreign ∨ input.length ≤ (pack input).length := by
  rw [compress, length_exceptions, ← or_assoc]
  split
  next h => exact ⟨fun _ => .inl h, fun _ => rfl⟩
  next h =>
    dsimp only
    split
    next hshorter => exact ⟨nofun, fun hor => hor.elim (absurd · h) fun hle => by omega⟩
    next hshorter => exact ⟨fun _ => .inr (Nat.le_of_not_lt hshorter), fun _ => rfl⟩

/-- What was compressed is restored. -/
theorem decompress_compress {input packed : Bytes} (hmeasured : Measured input)
    (h : compress input = some packed) : decompress packed input.length = .ok input := by
  rw [← (compress_eq_some h).1]
  exact decompress_pack_iff.mpr hmeasured

end Lexicon.Lowercase

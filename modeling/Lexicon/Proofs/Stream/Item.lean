import Lexicon.Proofs.Stream.Frame

/-!
# Items in a buffer, in a stream, and read back

Items are put together in buffers, which grow byte by byte, and written to streams in portions. Both
come to the same bytes, and a reader that is told which kinds of items there are takes them back.

> **`sinks_agree`** — after each of some items, a buffer and a stream hold the same bytes, and the
> position of the stream is their number; read back from any place, each item ends where it ended.

What both hold is told item by item (`Item.pushes`, `Output.trace`), and so is what is read
(`Item.Kind.reads`), so that one induction over the items ties the places to each other.
-/

namespace Lexicon

/-- The bytes of a number behind those of a buffer, one put to the end after the other. -/
def Varint.push (n : Nat) (buffer : Bytes) : Bytes :=
  if n < 128 then buffer ++ [UInt8.ofNat n]
  else push (n / 128) (buffer ++ [UInt8.ofNat (n % 128 + 128)])
termination_by n
decreasing_by omega

/-- Pushing a number adds its bytes. -/
theorem Varint.push_eq (n : Nat) : ∀ buffer : Bytes, push n buffer = buffer ++ encode n := by
  induction n using Nat.strongRecOn with
  | ind n ih =>
    intro buffer
    rw [push, encode]
    split
    · rfl
    · rw [ih (n / 128) (by omega), List.append_assoc, List.singleton_append]

namespace Item

/-! ## Buffers -/

/-- A buffer with an item at its end. -/
def push (buffer : Bytes) : Item → Bytes
  | .byte b => buffer ++ [b]
  | .bytes bs => buffer ++ bs
  | .vint n => Varint.push n.toNat buffer
  | .vlong n => Varint.push n.toNat buffer
  | .u32 n => buffer ++ Bytes.littleEndian 4 n.toNat
  | .u64 n => buffer ++ Bytes.littleEndian 8 n.toNat
  | .block bs => Varint.push (UInt32.ofNat bs.length).toNat buffer ++ bs

/-- The buffers after each of some items. -/
def pushes (buffer : Bytes) : List Item → List Bytes
  | [] => []
  | item :: items => push buffer item :: pushes (push buffer item) items

/-- Pushing an item adds its bytes. -/
theorem push_eq (buffer : Bytes) (item : Item) : push buffer item = buffer ++ item.encode := by
  cases item <;> simp [push, encode, Varint.push_eq]

/-- Pushing items adds their bytes one after the other. -/
theorem foldl_push (items : List Item) : ∀ buffer : Bytes,
    items.foldl push buffer = buffer ++ encodeAll items := by
  induction items with
  | nil => simp
  | cons item items ih =>
    intro buffer
    rw [List.foldl_cons, ih, push_eq, encodeAll_cons, List.append_assoc]

/-! ## Reading -/

/-- The length of a byte string fits the 32 bits in which it is written before it. -/
def Fits : Item → Prop
  | .block bs => bs.length < 2 ^ 32
  | _ => True

/-- What a reader has to know of an item: its kind, and how long it is if nothing tells. -/
inductive Kind where
  | byte
  | bytes (length : Nat)
  | vint
  | vlong
  | u32
  | u64
  | block
  deriving DecidableEq, Repr

def kind : Item → Kind
  | .byte _ => .byte
  | .bytes bs => .bytes bs.length
  | .vint _ => .vint
  | .vlong _ => .vlong
  | .u32 _ => .u32
  | .u64 _ => .u64
  | .block _ => .block

/-- Reads an item of the kind. -/
def Kind.read : Kind → Read Item
  | .byte => Item.byte <$> Read.byte
  | .bytes length => Item.bytes <$> Read.bytes length
  | .vint => Item.nat32 <$> Read.vint
  | .vlong => Item.nat64 <$> Read.vlong
  | .u32 => (fun n => Item.u32 (UInt32.ofNat n)) <$> Read.word 4
  | .u64 => (fun n => Item.u64 (UInt64.ofNat n)) <$> Read.word 8
  | .block => Item.block <$> Read.block

/-- Reads items of some kinds, each with the place where it ends. -/
def Kind.reads : List Kind → Read (List (Item × Nat))
  | [] => pure []
  | kind :: kinds => do
    let item ← kind.read
    let stop ← Read.position
    return (item, stop) :: (← reads kinds)

open Read

/-- **An item is read back** by a reader that knows its kind. -/
theorem takes_kind {item : Item} (h : item.Fits) : Takes item.kind.read item.encode item := by
  cases item with
  | byte b => exact (takes_byte b).map Item.byte
  | bytes bs => exact (takes_bytes bs).map Item.bytes
  | vint n =>
    have htakes := (takes_vint_item n).map Item.nat32
    rw [nat32, UInt32.ofNat_toNat] at htakes
    exact htakes
  | vlong n =>
    have htakes := (takes_vlong_item n).map Item.nat64
    rw [nat64, UInt64.ofNat_toNat] at htakes
    exact htakes
  | u32 n =>
    have hword : Takes (word 4) (Bytes.littleEndian 4 n.toNat) n.toNat := takes_word n.toNat_lt
    have htakes := hword.map fun n => Item.u32 (UInt32.ofNat n)
    rw [UInt32.ofNat_toNat] at htakes
    exact htakes
  | u64 n =>
    have hword : Takes (word 8) (Bytes.littleEndian 8 n.toNat) n.toNat := takes_word n.toNat_lt
    have htakes := hword.map fun n => Item.u64 (UInt64.ofNat n)
    rw [UInt64.ofNat_toNat] at htakes
    exact htakes
  | block bs => exact (takes_block_item h).map Item.block

/-- Items are read back, and each ends where the buffer ended that had just been given it. The
buffer may hold bytes before them, and may itself begin anywhere. -/
theorem reads_spec (items : List Item) (hfits : ∀ item ∈ items, item.Fits) :
    ∀ (buffer : Bytes) (offset : Nat) (rest : Bytes),
      Kind.reads (items.map kind) ⟨offset + buffer.length, encodeAll items ++ rest⟩
        = .ok (items.zip ((pushes buffer items).map (offset + ·.length)))
          ⟨offset + (items.foldl push buffer).length, rest⟩ := by
  induction items with
  | nil => intro buffer offset rest; rfl
  | cons item items ih =>
    intro buffer offset rest
    obtain ⟨hitem, hitems⟩ := List.forall_mem_cons.mp hfits
    have hread := takes_kind hitem (offset + buffer.length) (encodeAll items ++ rest)
    have hstop : offset + buffer.length + item.encode.length
        = offset + (push buffer item).length := by
      rw [push_eq, List.length_append, Nat.add_assoc]
    rw [hstop] at hread
    rw [encodeAll_cons, List.append_assoc, List.map_cons, Kind.reads, bind_ok hread]
    exact bind_ok (ih hitems (push buffer item) offset rest)

end Item

/-! ## Streams -/

namespace Output

/-- Writes items to memory, and tells the position after each, with what the sink then holds. -/
def trace : List Item → Write Memory (List (Nat × Bytes))
  | [] => pure []
  | it :: its => do
    item it
    let out ← get
    return (out.position, out.sink.bytes) :: (← trace its)

/-- After each item the position is the length of the bytes so far. -/
theorem trace_spec (items' : List Item) :
    ∀ {out : Output Memory} {bs : Bytes}, out.Holds bs →
      ∃ out', trace items' out = .ok ((Item.pushes bs items').map fun b => (b.length, b)) out' ∧
        out'.Holds (items'.foldl Item.push bs) := by
  induction items' with
  | nil => exact fun h => ⟨_, rfl, h⟩
  | cons it its ih =>
    intro out bs h
    obtain ⟨mid, hmid, hholds⟩ := items_spec h [it]
    rw [Item.encodeAll_singleton, ← Item.push_eq] at hholds
    obtain ⟨out', hout', hholds'⟩ := ih hholds
    refine ⟨out', ?_, hholds'⟩
    rw [trace, bind_ok (show item it out = .ok () mid from hmid)]
    have hget : (get : Write Memory (Output Memory)) mid = .ok mid mid := rfl
    rw [bind_ok hget, bind_ok hout', hholds.position, hholds.bytes]
    rfl

end Output

/-- **A buffer and a stream hold the same bytes after each item**, those of the items one after the
other, and the position of the stream is their number. If the lengths fit, a reader that is placed
where the items begin, whatever stands before and behind them, gives them back, and each read ends
where the item ended. -/
theorem sinks_agree (name : String) (items : List Item) :
    (∃ out, Output.trace items ⟨name, {}, {}⟩
        = .ok ((Item.pushes [] items).map fun bs => (bs.length, bs)) out ∧
      out.sink.bytes = items.foldl Item.push [] ∧
      out.position = (items.foldl Item.push []).length) ∧
    items.foldl Item.push [] = Item.encodeAll items ∧
    ((∀ item ∈ items, item.Fits) → ∀ before rest : Bytes,
      ∃ c, Cursor.at? (before ++ (items.foldl Item.push [] ++ rest)) before.length = .ok c ∧
        Item.Kind.reads (items.map Item.kind) c
          = .ok (items.zip ((Item.pushes [] items).map (before.length + ·.length)))
            ⟨before.length + (items.foldl Item.push []).length, rest⟩) := by
  obtain ⟨out, htrace, hholds⟩ := Output.trace_spec items (Output.holds_empty name)
  have hbytes : items.foldl Item.push [] = Item.encodeAll items := Item.foldl_push items []
  refine ⟨⟨out, htrace, hholds.bytes, hholds.position⟩, hbytes, fun hfits before rest => ?_⟩
  refine ⟨⟨before.length, items.foldl Item.push [] ++ rest⟩, ?_, ?_⟩
  · rw [Cursor.at?, if_pos (by simp), List.drop_left]
  · have hreads := Item.reads_spec items hfits [] before.length rest
    rw [hbytes]
    rwa [hbytes, List.length_nil, Nat.add_zero] at hreads

/-- Items of all kinds; the numbers of variable length just fit one byte, need a second, and need as
many as there can be. -/
def brimming : List Item :=
  [.vint 127, .vint 128, .vint 4294967295, .vlong 18446744073709551615, .u32 3735928559, .u64 42,
    .block [1, 2], .bytes [9], .byte 7]

theorem sinks_agree_brimming :
    (∀ item ∈ brimming, item.Fits) ∧
      ∃ c, Cursor.at? ([255] ++ (brimming.foldl Item.push [] ++ [128, 128])) 1 = .ok c ∧
        Item.Kind.reads (brimming.map Item.kind) c
          = .ok (brimming.zip [2, 4, 9, 19, 23, 31, 34, 35, 36]) ⟨36, [128, 128]⟩ := by
  have hfits : ∀ item ∈ brimming, item.Fits := by simp [brimming, Item.Fits]
  have hstops : (Item.pushes [] brimming).map (1 + ·.length)
      = [2, 4, 9, 19, 23, 31, 34, 35, 36] := by decide +kernel
  have hlength : (brimming.foldl Item.push []).length = 35 := by decide +kernel
  obtain ⟨c, hat, hreads⟩ := (sinks_agree "f" brimming).2.2 hfits [255] [128, 128]
  refine ⟨hfits, c, hat, ?_⟩
  rw [hreads, hlength, ← hstops]
  rfl

end Lexicon

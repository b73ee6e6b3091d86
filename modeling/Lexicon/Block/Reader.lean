import Lexicon.Block.Stats
import Lexicon.Compression.Choice
import Lexicon.Term.Longs

/-!
# Reading blocks

`Block.decode` reads the block at an offset of the stream of blocks. A block is accepted only if
every part of it is used up by its entries, and a sub-block has to lie before the block that names
it.
-/

namespace Lexicon

/-- One entry of a block that was read, without the prefix of its run. -/
inductive BlockEntry where
  | term (suffix : Bytes) (state : TermState)
  | block (suffix : Bytes) (fp : Nat)
  deriving DecidableEq, Repr

/-- A block that was read. -/
structure Block where
  isLast : Bool
  /-- Whether it holds terms only. -/
  isLeaf : Bool
  compression : Compression
  /-- Number of bytes of all suffixes. -/
  suffixBytes : Nat
  entries : List BlockEntry
  /-- Where the block after it starts. -/
  stop : Nat
  deriving DecidableEq, Repr

namespace Block

/-- Reads the bytes that hold the lengths of the suffixes. -/
def readLengths : Read Bytes := do
  let code ← Read.vint
  let size := code / 2
  if code % 2 = 1 then
    let b ← Read.byte
    -- the byte is read before the count is refused
    if size = 0 then Read.corrupt .emptyLengthRun
    return List.replicate size b
  else Read.bytes size

/-- The first things read of a block, and the parts that hold its entries. -/
structure Layout where
  count : Nat
  isLast : Bool
  isLeaf : Bool
  compression : Compression
  suffixes : Bytes
  /-- Number of suffix bytes before compression. -/
  suffixBytes : Nat
  lengths : Bytes
  stats : Bytes
  longs : Bytes
  stop : Nat

/-- Makes an error of a computation that reads nothing one of the read. -/
def lift {α : Type} : Except Error α → Read α
  | .ok a => pure a
  | .error e => throw e

/-- Reads the parts of the block at `fp`. -/
def readLayout (fp : Nat) : Read Layout := do
  let head ← Read.vint
  let count := head / 2
  if count = 0 then Read.corrupt (.emptyBlock fp)
  -- two bits say how the suffixes are compressed and one whether there are only terms
  let token ← Read.vlong
  let suffixBytes := token / 8
  let compression ← lift (Compression.ofCode (token % 4))
  let suffixes ← match compression with
    | .none => Read.bytes suffixBytes
    | c => do lift (c.decompress (← Read.block) suffixBytes)
  let lengths ← readLengths
  let stats ← Read.block
  let longs ← Read.block
  return { count, isLast := head % 2 = 1, isLeaf := token / 4 % 2 = 1, compression, suffixes
           suffixBytes, lengths, stats, longs, stop := ← Read.position }

/-- What is left of the parts of a block. -/
structure Parts where
  suffixes : Cursor
  lengths : Cursor
  stats : BlockStats.Reader
  longs : Cursor
  codec : LongsCodec
  /-- Whether the next term is the first. -/
  absolute : Bool := true

namespace Parts

def readSuffix {α : Type} (r : Read α) : EStateM Error Parts α := fun p =>
  match r p.suffixes with
  | .ok a suffixes => .ok a { p with suffixes }
  | .error e suffixes => .error e { p with suffixes }

def readLength {α : Type} (r : Read α) : EStateM Error Parts α := fun p =>
  match r p.lengths with
  | .ok a lengths => .ok a { p with lengths }
  | .error e lengths => .error e { p with lengths }

def nextStats : EStateM Error Parts TermStats := fun p =>
  match BlockStats.Reader.next p.stats with
  | .ok a stats => .ok a { p with stats }
  | .error e stats => .error e { p with stats }

def nextLongs : EStateM Error Parts (List UInt64) := fun p =>
  match p.codec.decode p.absolute p.longs with
  | (.ok a, codec, longs) => .ok a { p with codec, longs, absolute := false }
  | (.error e, codec, longs) => .error e { p with codec, longs }

/-- Whether nothing is left. -/
def exhausted (p : Parts) : Bool :=
  p.suffixes.atEnd && p.lengths.atEnd && p.stats.exhausted && p.longs.atEnd

end Parts

/-- Reads the next entry of the block at `fp`. -/
def readEntry (fp : Nat) (leaf : Bool) : EStateM Error Parts BlockEntry := do
  let code ← Parts.readLength Read.vint
  let suffix ← Parts.readSuffix (Read.bytes (if leaf then code else code / 2))
  if !leaf && code % 2 = 1 then
    let delta ← Parts.readLength Read.vlong
    if delta = 0 ∨ fp < delta then throw (.corrupt (.badChild fp delta))
    return .block suffix (fp - delta)
  else
    let stats ← Parts.nextStats
    return .term suffix { stats with longs := ← Parts.nextLongs }

/-- Reads `count` entries of the block at `fp`. -/
def readEntries (fp : Nat) (leaf : Bool) : Nat → EStateM Error Parts (List BlockEntry)
  | 0 => pure []
  | count + 1 => do
    let entry ← readEntry fp leaf
    return entry :: (← readEntries fp leaf count)

/-- The block at `fp` of the stream of blocks. -/
def decode (terms : Bytes) (hasFreqs : Bool) (fp : Nat) : EStateM Error LongsCodec Block :=
  fun codec =>
    match Cursor.at? terms fp with
    | .error e => .error e codec
    | .ok input =>
      match readLayout fp input with
      | .error e _ => .error e codec
      | .ok l _ =>
        match readEntries fp l.isLeaf l.count
            ⟨.start l.suffixes, .start l.lengths, { input := .start l.stats, hasFreqs },
              .start l.longs, codec, true⟩ with
        -- the codec keeps what it took from the entries before the one that failed
        | .error e parts => .error e parts.codec
        | .ok entries parts =>
          if parts.exhausted then
            .ok ⟨l.isLast, l.isLeaf, l.compression, l.suffixBytes, entries, l.stop⟩ parts.codec
          else .error (.corrupt (.unreadBytes fp)) parts.codec

end Block

end Lexicon

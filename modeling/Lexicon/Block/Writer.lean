import Lexicon.Block.Location
import Lexicon.Block.Plan
import Lexicon.Block.Stats
import Lexicon.Compression.Choice
import Lexicon.Term.Longs
import Lexicon.Transducer.Builder
import Lexicon.Transducer.Items

/-!
# Writing blocks

A block holds what its entries have after the prefix of the run, in five parts:

    number of entries, and whether it is the last block of its run
    number of suffix bytes, whether it holds terms only, how they are compressed; the suffix bytes
    the lengths of the suffixes, one byte if they all are that byte
    the statistics of the terms
    the numbers of the terms

In a block with sub-blocks a length also tells whether the entry is one, and the distance back to it
follows. `encodeBlock` gives the items of a block, and `compileIndex` the index of a run from its
blocks and the indexes of the sub-blocks.
-/

namespace Lexicon

/-- A block as written, with the indexes of the sub-blocks in it. -/
structure WrittenBlock where
  /-- The prefix of the run and, for a block that is not its first, the byte that the block
  begins with. -/
  stem : Bytes
  fp : Nat
  hasTerms : Bool
  isFloor : Bool
  lead : Option UInt8
  subIndexes : List Transducer
  deriving Repr

/-! ## The parts of a block -/

/-- What a block at `fp` needs of an entry. -/
def Entry.checkIn (stem : Bytes) (leaf : Bool) (fp : Nat) : Entry → Except Error Unit
  | .term key _ => if stem.isPrefixOf key then .ok () else .error (.misuse .termOutsideBlock)
  | .block b =>
    if leaf then .error (.misuse .subBlockInLeaf)
    else if ¬ (stem.length < b.stem.length ∧ stem.isPrefixOf b.stem) then
      .error (.misuse .subBlockOutsideBlock)
    else if fp ≤ b.fp then .error (.misuse .subBlockNotBefore)
    else .ok ()

/-- Whether an entry does not sort before the byte that its block begins with, if it begins with
one. -/
def Entry.notBefore (depth : Nat) (lead : Option UInt8) (e : Entry) : Bool :=
  lead.all fun label => (e.lead depth).any (label ≤ ·)

/-- The bytes after the common prefix, of every entry. -/
def suffixBytes (depth : Nat) (entries : List Entry) : Bytes :=
  entries.flatMap fun e => e.key.drop depth

/-- The length of what an entry has after the common prefix and, in a block with sub-blocks, its
kind. -/
def Entry.lengthItems (depth : Nat) (leaf : Bool) (fp : Nat) : Entry → List Item
  | .term key _ =>
    let length := UInt32.ofNat (key.length - depth)
    [.vint (if leaf then length else length <<< 1)]
  | .block b => [.vint ((UInt32.ofNat (b.stem.length - depth) <<< 1) ||| 1), .nat64 (fp - b.fp)]

/-- The lengths of a row of entries. -/
def lengthBytes (depth : Nat) (leaf : Bool) (fp : Nat) (entries : List Entry) : Bytes :=
  Item.encodeAll (entries.flatMap (Entry.lengthItems depth leaf fp))

/-- The states of the terms among the entries. -/
def termStates (entries : List Entry) : List TermState :=
  entries.filterMap fun
    | .term _ state => some state
    | .block _ => none

/-- The indexes of the sub-blocks among the entries. -/
def subIndexes (entries : List Entry) : List Transducer :=
  entries.filterMap fun
    | .term .. => none
    | .block b => some b.index

/-- The numbers of a row of terms, the first of which may be absolute. -/
def longsItems (codec : LongsCodec) (absolute : Bool) : List TermState → List Item × LongsCodec
  | [] => ([], codec)
  | state :: rest =>
    let (first, codec) := codec.encode absolute state.longs
    let (others, codec) := longsItems codec false rest
    (first ++ others, codec)

/-- The items of suffix bytes. -/
def suffixItems (suffixes : Bytes) (leaf : Bool) (compressed : Option (Compression × Bytes)) :
    List Item :=
  let token (c : Compression) := Item.nat64 (8 * suffixes.length + 4 * leaf.toNat + c.code)
  match compressed with
  | some (c, payload) => [token c, .block payload]
  | none => [token .none, .bytes suffixes]

/-- The items of suffix lengths: the first byte once if all are the same. -/
def lengthsItems (first : UInt8) (rest : Bytes) : List Item :=
  let size := 2 * (rest.length + 1)
  if rest.all (· = first) then [.nat32 (size + 1), .byte first]
  else [.nat32 size, .bytes (first :: rest)]

/-- The items of the block at `fp` with the given plan, and what is left of it to index. -/
def encodeBlock (codec : LongsCodec) (hasFreqs : Bool) (stem : Bytes) (plan : BlockPlan) (fp : Nat)
    (entries : List Entry) (isLast : Bool) :
    Except Error (List Item × WrittenBlock × LongsCodec) := do
  let depth := stem.length
  let leaf := !plan.hasSubBlocks
  if entries.length ≠ plan.size then throw (.misuse .entriesNotPlanned)
  if !entries.all (Entry.notBefore depth plan.lead) then throw (.misuse .entryBeforeLead)
  entries.forM (Entry.checkIn stem leaf fp)
  let suffixes := suffixBytes depth entries
  let states := termStates entries
  let stats := BlockStats.encode hasFreqs (states.map (·.toTermStats))
  -- the first term is absolute, so that a reader can start at any block
  let (longs, codec) := longsItems codec true states
  match lengthBytes depth leaf fp entries with
  | [] => throw (.misuse .blockWithoutEntries)
  | first :: rest =>
    let items := [.nat32 (2 * entries.length + isLast.toNat)]
      ++ suffixItems suffixes leaf (compressSuffixes suffixes entries.length depth)
      ++ lengthsItems first rest ++ [.block stats, .block (Item.encodeAll longs)]
    let written := { fp, stem := stem ++ (if plan.isFloor then plan.lead.toList else [])
                     hasTerms := plan.hasTerms, isFloor := plan.isFloor, lead := plan.lead
                     subIndexes := subIndexes entries }
    return (items, written, codec)

/-! ## The index of a run -/

/-- The blocks after the first of a run, which has to be before them. -/
def siblingsAfter (fp : Nat) : List WrittenBlock → Except Error (List Sibling)
  | [] => .ok []
  | b :: rest => do
    match b.lead with
    | none => throw (.transducer .siblingWithoutLead)
    | some lead =>
      if b.fp ≤ fp then throw (.misuse .siblingNotAfter)
      return ⟨lead, b.fp, b.hasTerms⟩ :: (← siblingsAfter fp rest)

/-- The run of some blocks, with the index of all runs in it: its own prefix comes first, then what
the indexes of the sub-blocks hold, in order. -/
def compileIndex : List WrittenBlock → Except Error SubBlock
  | [] => .error (.misuse .noBlocks)
  | first :: rest => do
    if !first.isFloor && !rest.isEmpty then throw (.misuse .firstBlockNotFloor)
    let siblings ← siblingsAfter first.fp rest
    let location : Location := ⟨first.fp, first.hasTerms, first.isFloor, siblings⟩
    let below ← ((first :: rest).flatMap (·.subIndexes)).mapM Transducer.entries
    -- the prefix of the run sorts before all that are in it, and those of its sub-blocks in order
    let builder ← ({} : Transducer.Builder).addAll ((first.stem, location.encode) :: below.flatten)
    return { stem := first.stem, fp := first.fp, hasTerms := first.hasTerms
             isFloor := first.isFloor, lead := first.lead, index := builder.finish }

end Lexicon

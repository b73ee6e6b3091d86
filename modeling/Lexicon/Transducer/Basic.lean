import Lexicon.Cursor
import Lexicon.Stream.Item

/-!
# Transducers

A transducer maps byte strings to byte strings. It is a graph of nodes, laid out in one byte string
and named by their offsets in it; a key is a path from the root, and its output is what the arcs of
the path put out, one after the other. A node is its number of arcs and then its arcs, sorted by
label:

    label | flags | [output] | [output where a key ends] | [offset of the node it leads to]

The empty key has no path, so its output is kept apart. `Transducer.get?` looks up one key and
`Transducer.longest?` the longest key at the front of a text; `Transducer.items` lists the keys.
-/

namespace Lexicon

/-- One arc of a node. -/
structure Arc where
  label : UInt8
  output : Bytes
  /-- Whether a key ends with this arc. -/
  final : Bool
  /-- What a key that ends with this arc puts out besides. -/
  finalOutput : Bytes
  /-- The node that the arc leads to. -/
  target : Option Nat
  deriving DecidableEq, Repr

namespace Arc

/-- The byte that tells which parts of an arc follow. -/
def flags (a : Arc) : UInt8 :=
  UInt8.ofNat (a.final.toNat + 2 * (!a.output.isEmpty).toNat + 4 * (!a.finalOutput.isEmpty).toNat
    + 8 * a.target.isNone.toNat)

/-- The items of an arc. -/
def items (a : Arc) : List Item :=
  [.byte a.label, .byte a.flags]
    ++ (if a.output.isEmpty then [] else [.block a.output])
    ++ (if a.finalOutput.isEmpty then [] else [.block a.finalOutput])
    ++ (match a.target with | some address => [.nat64 address] | none => [])

/-- Reads an arc. One that leads nowhere has to end a key. -/
def read : Read Arc := do
  let label ← Read.byte
  let flags := (← Read.byte).toNat
  let output ← if flags.testBit 1 then Read.block else pure []
  let finalOutput ← if flags.testBit 2 then Read.block else pure []
  let target ← if flags.testBit 3 then pure none else some <$> Read.vlong
  let final := flags.testBit 0
  if target.isNone && !final then throw (.transducer .deadEnd)
  return { label, output, final, finalOutput, target }

end Arc

/-- A finished map from byte strings to byte strings. -/
structure Transducer where
  /-- The nodes, one after the other. -/
  nodes : Bytes
  root : Option Nat
  /-- What the empty key puts out, if it is a key. -/
  emptyOutput : Option Bytes
  /-- Number of keys. -/
  size : Nat
  deriving DecidableEq, Repr

namespace Transducer

/-- The items of a node with the given arcs. -/
def nodeItems (arcs : List Arc) : List Item := .nat32 arcs.length :: arcs.flatMap Arc.items

/-! ## Nodes -/

/-- Runs a read at a node. -/
def atNode {α : Type} (t : Transducer) (address : Nat) (r : Read α) : Except Error α := do
  let c ← Cursor.at? t.nodes address
  match r c with
  | .ok a _ => return a
  | .error e _ => throw e

/-- Reads `count` arcs. -/
def readArcs : Nat → Read (List Arc)
  | 0 => pure []
  | count + 1 => do
    let arc ← Arc.read
    return arc :: (← readArcs count)

/-- The arcs of a node, of which there are 1 to 256. -/
def arcs (t : Transducer) (address : Nat) : Except Error (List Arc) :=
  t.atNode address do
    let count ← Read.vint
    if count = 0 ∨ 256 < count then throw (.transducer (.badArcCount address count))
    readArcs count

/-- Reads up to `count` arcs, as far as a label that is not below the given one. -/
def seekArc (label : UInt8) : Nat → Read (Option Arc)
  | 0 => pure none
  | count + 1 => do
    let arc ← Arc.read
    if arc.label = label then return some arc
    else if label < arc.label then return none
    else seekArc label count

/-- The arc of a node with the given label. -/
def arc? (t : Transducer) (address : Nat) (label : UInt8) : Except Error (Option Arc) :=
  t.atNode address do seekArc label (← Read.vint)

/-! ## Lookup -/

/-- What the rest of a key puts out from a node on, `output` being put out before it. The rest is
not empty. -/
def follow (t : Transducer) (node : Option Nat) (output : Bytes) :
    Bytes → Except Error (Option Bytes)
  | [] => .ok none
  | label :: rest =>
    match node with
    | none => .ok none
    | some address => do
      match ← t.arc? address label with
      | none => return none
      | some arc =>
        let output := output ++ arc.output
        if rest.isEmpty then return if arc.final then some (output ++ arc.finalOutput) else none
        else follow t arc.target output rest

/-- What a key puts out. -/
def get? (t : Transducer) (key : Bytes) : Except Error (Option Bytes) :=
  if key.isEmpty then .ok t.emptyOutput else t.follow t.root [] key

/-- The longest key that reaches on from a node, after `depth` bytes, with what it puts out; or else
the longest one so far. -/
def followLongest (t : Transducer) (node : Option Nat) (output : Bytes) (depth : Nat)
    (best : Option (Nat × Bytes)) : Bytes → Except Error (Option (Nat × Bytes))
  | [] => .ok best
  | label :: rest =>
    match node with
    | none => .ok best
    | some address => do
      match ← t.arc? address label with
      | none => return best
      | some arc =>
        let output := output ++ arc.output
        let best := if arc.final then some (depth + 1, output ++ arc.finalOutput) else best
        followLongest t arc.target output (depth + 1) best rest

/-- The longest key at the front of a text: its length and what it puts out. -/
def longest? (t : Transducer) (text : Bytes) : Except Error (Option (Nat × Bytes)) :=
  t.followLongest t.root [] 0 (t.emptyOutput.map (0, ·)) text

end Transducer

end Lexicon

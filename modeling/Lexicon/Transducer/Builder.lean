import Lexicon.Transducer.Basic

/-!
# Building transducers

Keys are added in increasing order. Only the path of the last key is still open; everything to its
left is laid out, with equal nodes shared. An output is put out as early as the keys that share its
arc allow: where two keys part, the arcs before keep what their outputs begin with in common and the
rest moves on.
-/

namespace Lexicon.Transducer

/-- The nodes laid out so far. -/
structure Store where
  nodes : Bytes := []
  /-- The bytes of every node with its offset, the latest first. -/
  known : List (Bytes × Nat) := []

namespace Store

/-- The offset of a node with the given arcs, which is laid out if there is none yet. A node without
arcs has no place. -/
def place (s : Store) (arcs : List Arc) : Option Nat × Store :=
  if arcs.isEmpty then (none, s)
  else
    let bytes := Item.encodeAll (nodeItems arcs)
    match s.known.lookup bytes with
    | some address => (some address, s)
    | none =>
      let address := s.nodes.length
      (some address, ⟨s.nodes ++ bytes, (bytes, address) :: s.known⟩)

end Store

/-- The open path of the last key, from a node on. Each node knows what a key that ends at it puts
out besides, if one does. -/
inductive Path where
  /-- The node at which the last key ends. -/
  | tip (final : Option Bytes)
  /-- A node with finished arcs and one, the last, that leads on. -/
  | node (final : Option Bytes) (arcs : List Arc) (label : UInt8) (output : Bytes) (child : Path)
  deriving Repr

namespace Path

/-- What a key that ends at the first node puts out besides, if one does. -/
def final : Path → Option Bytes
  | .tip final => final
  | .node final .. => final

/-- The path of a key, from its first node on, that puts nothing out. -/
def ofKey : Bytes → Path
  | [] => .tip (some [])
  | label :: rest => .node none [] label [] (ofKey rest)

/-- Puts bytes before all that is put out from the first node on. -/
def prepend (bytes : Bytes) : Path → Path
  | .tip final => .tip (final.map (bytes ++ ·))
  | .node final arcs label output child =>
    .node (final.map (bytes ++ ·)) (arcs.map fun a => { a with output := bytes ++ a.output })
      label (bytes ++ output) child

/-- Lays out a path: the offset of its first node. -/
def freeze : Path → Store → Option Nat × Store
  | .tip _, s => (none, s)
  | .node _ arcs label output child, s =>
    let (target, s) := child.freeze s
    s.place (arcs ++
      [⟨label, output, child.final.isSome, child.final.getD [], target⟩])

/-- The path of the next key, which sorts after the last, with what it puts out. The part of the
last key that they do not share is laid out. -/
def insert : Path → Bytes → Bytes → Store → Path × Store
  | path, [], _, s => (path, s)
  | .tip final, label :: rest, output, s => (.node final [] label output (ofKey rest), s)
  | .node final arcs last old child, label :: rest, output, s =>
    if label = last then
      -- what the two outputs do not share is put out further down, each on its own arcs
      let common := Bytes.agreement output old
      let (child, s) := (child.prepend (old.drop common)).insert rest (output.drop common) s
      (.node final arcs last (old.take common) child, s)
    else
      let (target, s) := child.freeze s
      let arc := ⟨last, old, child.final.isSome, child.final.getD [], target⟩
      (.node final (arcs ++ [arc]) label output (ofKey rest), s)

end Path

/-- A transducer that is being built. -/
structure Builder where
  path : Path := .tip none
  store : Store := {}
  last : Bytes := []
  emptyOutput : Option Bytes := none
  /-- Number of keys. -/
  size : Nat := 0

namespace Builder

/-- Adds a key with what it puts out. Every key but the first has to sort after the last. -/
def add (b : Builder) (key output : Bytes) : Except Error Builder :=
  if 0 < b.size ∧ ¬ b.last < key then .error (.transducer (.keyOutOfOrder key b.last))
  else if key.isEmpty then .ok { b with emptyOutput := some output, size := b.size + 1 }
  else
    let (path, store) := b.path.insert key output b.store
    .ok { b with path, store, last := key, size := b.size + 1 }

/-- Adds keys in order. -/
def addAll (b : Builder) : List (Bytes × Bytes) → Except Error Builder
  | [] => .ok b
  | (key, output) :: rest => do (← b.add key output).addAll rest

/-- The transducer of the keys added. -/
def finish (b : Builder) : Transducer :=
  let (root, store) := b.path.freeze b.store
  ⟨store.nodes, root, b.emptyOutput, b.size⟩

end Builder

end Lexicon.Transducer

import Lexicon.Transducer.Basic

/-!
# Transducers in a stream

A stored transducer is its number of keys, what the empty key puts out, the offset of the root, and
the nodes. The two parts that may be missing follow a byte that tells whether they are there.
-/

namespace Lexicon.Transducer

/-- The items of a stored transducer. -/
def saveItems (t : Transducer) : List Item :=
  [.nat64 t.size]
    ++ (match t.emptyOutput with | some output => [.byte 1, .block output] | none => [.byte 0])
    ++ (match t.root with | some root => [.byte 1, .nat64 root] | none => [.byte 0])
    ++ [.nat64 t.nodes.length, .bytes t.nodes]

/-- The bytes of a stored transducer. -/
def save (t : Transducer) : Bytes := Item.encodeAll t.saveItems

/-- Reads a part that may be missing. -/
def optional {α : Type} (part : Read α) (bad : Nat → TransducerFault) : Read (Option α) := do
  match (← Read.byte).toNat with
  | 0 => return none
  | 1 => some <$> part
  | marker => throw (.transducer (bad marker))

/-- Reads a stored transducer, whose root has to lie among its nodes. -/
def load : Read Transducer := do
  let size ← Read.vlong
  let emptyOutput ← optional Read.block .badEmptyMarker
  let root ← optional Read.vlong .badRootMarker
  let nodes ← Read.bytes (← Read.vlong)
  match root with
  | some address =>
    if nodes.length ≤ address then throw (.transducer (.rootBeyondNodes address nodes.length))
  | none => pure ()
  return { nodes, root, emptyOutput, size }

end Lexicon.Transducer

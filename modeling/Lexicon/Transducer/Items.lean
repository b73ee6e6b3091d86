import Lexicon.Transducer.Basic

/-!
# The keys of a transducer

The keys are listed depth first, so they come in order where the arcs of every node do. A `Walk` is
a place in that listing: the arcs that are still to be taken on each level, with the key and the
output that lead to the level. A node that cannot be read ends the listing with an error.
-/

namespace Lexicon.Transducer

/-- One level of a listing: the arcs still to be taken at a node. -/
structure Level where
  arcs : List Arc
  key : Bytes
  output : Bytes

/-- The levels of a listing, the deepest first. -/
abbrev Walk := List Level

/-- The next key, and the place after it. A path on which no key ends can be no longer than there
are nodes, unless it is endless; `descents` says how many arcs may be taken before a key. -/
def next (t : Transducer) (descents : Nat) :
    Walk → Option (Except Error (Bytes × Bytes) × Walk)
  | [] => none
  | ⟨[], _, _⟩ :: up => next t descents up
  | ⟨arc :: arcs, key, output⟩ :: up =>
    let below := output ++ arc.output
    let path := key ++ [arc.label]
    let up := ⟨arcs, key, output⟩ :: up
    let item := (path, below ++ arc.finalOutput)
    match arc.target with
    | none => some (.ok item, up)
    | some address =>
      match t.arcs address with
      -- the error takes the place of the arc's own key, and nothing comes after it
      | .error e => some (.error e, [])
      | .ok arcs =>
        let walk := ⟨arcs, path, below⟩ :: up
        if arc.final then some (.ok item, walk)
        else
          match descents with
          | 0 => none
          | descents + 1 => next t descents walk
termination_by walk => (descents, walk.length)

/-- At most `limit` keys from a place on. -/
def itemsFrom (t : Transducer) : Nat → Walk → List (Except Error (Bytes × Bytes))
  | 0, _ => []
  | limit + 1, walk =>
    match t.next t.nodes.length walk with
    | none => []
    | some (item, walk) => item :: itemsFrom t limit walk

/-- The first keys with what they put out, at most `limit`. -/
def items (t : Transducer) (limit : Nat) : List (Except Error (Bytes × Bytes)) :=
  match t.root.map t.arcs with
  | some (.error e) => [Except.error e].take limit
  | start =>
    let walk : Walk := match start with
      | some (.ok arcs) => [⟨arcs, [], []⟩]
      | _ => []
    match t.emptyOutput, limit with
    | some _, 0 => []
    | some output, limit + 1 => .ok ([], output) :: t.itemsFrom limit walk
    | none, limit => t.itemsFrom limit walk

/-- All keys with what they put out, or the error that ends their listing. -/
def entries (t : Transducer) : Except Error (List (Bytes × Bytes)) := (t.items t.size).mapM id

end Lexicon.Transducer

import Lexicon.Proofs.Transducer.Nodes
import Lexicon.Transducer.Items

/-!
# The keys of a transducer

`Spells nodes bound arcs pairs` says that the paths which start with these arcs end in just these
pairs of a key and what it puts out, in order, and that no arc leads to an address from `bound` on.
Every node leads to nodes before it, so a descent cannot go on for ever. `Transducer.Denotes` is the
same of a whole transducer, and the three ways to use one follow from it:

> **`items_eq`** — listing the keys gives exactly the pairs, in order;
> **`get?_spec`** — looking up a key finds what it puts out, and nothing for what is no key;
> **`longest?_spec`** — looking up a text finds the longest key at its front.
-/

namespace Lexicon

/-- The keys of a transducer with what they put out, in order. -/
abbrev Pairs := List (Bytes × Bytes)

/-- The pairs with a key and an output put before each. -/
def Pairs.onto (key output : Bytes) (pairs : Pairs) : Pairs :=
  pairs.map fun p => (key ++ p.1, output ++ p.2)

namespace Pairs

/-- The keys are in order, each once. -/
def Increasing (pairs : Pairs) : Prop := pairs.Pairwise fun p q => p.1 < q.1

@[simp]
theorem onto_nil (key output : Bytes) : onto key output [] = [] := rfl

@[simp]
theorem onto_append (key output : Bytes) (a b : Pairs) :
    onto key output (a ++ b) = onto key output a ++ onto key output b :=
  List.map_append

@[simp]
theorem onto_cons (key output : Bytes) (p : Bytes × Bytes) (pairs : Pairs) :
    onto key output (p :: pairs) = (key ++ p.1, output ++ p.2) :: onto key output pairs := rfl

theorem onto_empty (pairs : Pairs) : onto [] [] pairs = pairs := List.map_id' pairs

theorem onto_onto (key output key' output' : Bytes) (pairs : Pairs) :
    onto key output (onto key' output' pairs) = onto (key ++ key') (output ++ output') pairs := by
  simp [onto, List.append_assoc]

/-- Keys put behind an arc are as many as they were. -/
theorem onto_ne_nil {key output : Bytes} {pairs : Pairs} (h : pairs ≠ []) :
    onto key output pairs ≠ [] := by
  simpa [onto] using h

theorem mem_onto {key output : Bytes} {pairs : Pairs} {p : Bytes × Bytes} :
    p ∈ onto key output pairs ↔ ∃ q ∈ pairs, p = (key ++ q.1, output ++ q.2) := by
  simp [onto, eq_comm]

end Pairs

/-- The key that ends with an arc, if one does. -/
def Arc.ends (a : Arc) : Pairs :=
  if a.final then [([a.label], a.output ++ a.finalOutput)] else []

namespace Transducer

/-- What the paths spell that start with these arcs. -/
inductive Spells (nodes : Bytes) : Nat → List Arc → Pairs → Prop
  | nil (bound : Nat) : Spells nodes bound [] []
  | leaf {bound : Nat} {a : Arc} {arcs : List Arc} {rest : Pairs} (target : a.target = none)
      (final : a.final = true) (others : Spells nodes bound arcs rest) :
      Spells nodes bound (a :: arcs) (a.ends ++ rest)
  | node {bound address : Nat} {a : Arc} {arcs arcs' : List Arc} {below rest : Pairs}
      (target : a.target = some address) (lt : address < bound)
      (quiet : a.final = false → a.finalOutput = [])
      (at' : NodeAt nodes address arcs') (inside : Spells nodes address arcs' below)
      (others : Spells nodes bound arcs rest) :
      Spells nodes bound (a :: arcs) (a.ends ++ below.onto [a.label] a.output ++ rest)

/-- What the paths spell that start at a node, which lies before `bound`; nothing without one. -/
def Below (nodes : Bytes) (bound : Nat) (node : Option Nat) (pairs : Pairs) : Prop :=
  match node with
  | none => pairs = []
  | some address =>
    ∃ arcs, address < bound ∧ NodeAt nodes address arcs ∧ Spells nodes address arcs pairs

/-- The transducer maps exactly these keys to what they put out; the pairs are in the order of the
keys. -/
structure Denotes (t : Transducer) (pairs : Pairs) : Prop where
  size : t.size = pairs.length
  spelled : ∃ below, pairs = t.emptyOutput.toList.map ([], ·) ++ below ∧
    Below t.nodes t.nodes.length t.root below

variable {nodes : Bytes} {bound : Nat} {arcs : List Arc} {pairs : Pairs}

/-- Nodes laid out later change nothing. -/
theorem Spells.mono (h : Spells nodes bound arcs pairs) {more : Bytes} :
    ∀ {bound' : Nat}, bound ≤ bound' → Spells (nodes ++ more) bound' arcs pairs := by
  induction h with
  | nil => intro bound' _; exact .nil bound'
  | leaf target final _ ih => intro bound' hle; exact .leaf target final (ih hle)
  | node target lt quiet at' _ _ ihInside ihOthers =>
    intro bound' hle
    exact .node target (Nat.lt_of_lt_of_le lt hle) quiet at'.mono (ihInside (Nat.le_refl _))
      (ihOthers hle)

/-- The bound is only about the arcs themselves. -/
theorem Spells.narrow (h : Spells nodes bound arcs pairs) {bound' : Nat} :
    (∀ a ∈ arcs, ∀ address, a.target = some address → address < bound') →
      Spells nodes bound' arcs pairs := by
  induction h with
  | nil => intro _; exact .nil bound'
  | leaf target final _ ih =>
    intro hlt
    exact .leaf target final (ih fun a ha => hlt a (List.mem_cons_of_mem _ ha))
  | node target _ quiet at' inside _ _ ihOthers =>
    intro hlt
    exact .node target (hlt _ (List.mem_cons_self ..) _ target) quiet at' inside
      (ihOthers fun a ha => hlt a (List.mem_cons_of_mem _ ha))

/-- Arcs next to each other spell their keys next to each other. -/
theorem Spells.append {arcs' : List Arc} {pairs' : Pairs} (h : Spells nodes bound arcs pairs)
    (h' : Spells nodes bound arcs' pairs') :
    Spells nodes bound (arcs ++ arcs') (pairs ++ pairs') := by
  induction h with
  | nil => exact h'
  | leaf target final _ ih =>
    rw [List.append_assoc]
    exact .leaf target final (ih h')
  | node target lt quiet at' inside _ _ ihOthers =>
    rw [List.append_assoc]
    exact .node target lt quiet at' inside (ihOthers h')

/-- The arcs put out the bytes before all else. -/
theorem Spells.put (h : Spells nodes bound arcs pairs) (bytes : Bytes) :
    Spells nodes bound (arcs.map fun a => { a with output := bytes ++ a.output })
      (pairs.onto [] bytes) := by
  induction h with
  | nil => exact .nil _
  | @leaf bound a arcs rest target final _ ih =>
    have hends : (Arc.ends { a with output := bytes ++ a.output }) = a.ends.onto [] bytes := by
      rw [Arc.ends, Arc.ends, if_pos final, if_pos final]
      simp
    rw [Pairs.onto_append, ← hends]
    exact .leaf target final ih
  | @node bound address a arcs arcs' below rest target lt quiet at' inside _ _ ihOthers =>
    have hends : (Arc.ends { a with output := bytes ++ a.output }) = a.ends.onto [] bytes := by
      rw [Arc.ends, Arc.ends]
      cases a.final <;> simp
    rw [Pairs.onto_append, Pairs.onto_append, ← hends, Pairs.onto_onto]
    exact .node target lt quiet at' inside ihOthers

/-- Every arc is on the path of a key. -/
theorem Spells.ne_nil (h : Spells nodes bound arcs pairs) (hne : arcs ≠ []) : pairs ≠ [] := by
  induction h with
  | nil => exact absurd rfl hne
  | leaf _ final _ _ => simp [Arc.ends, final]
  | @node _ _ a _ _ _ _ _ _ _ at' _ _ ihInside _ =>
    have hbelow : Pairs.onto [a.label] a.output _ ≠ [] :=
      Pairs.onto_ne_nil (ihInside at'.nonempty)
    simp [hbelow]

/-- The paths of the first arc, and those of the others. -/
theorem Spells.uncons {a : Arc} (h : Spells nodes bound (a :: arcs) pairs) :
    ∃ below rest, Below nodes bound a.target below ∧ Spells nodes bound arcs rest ∧
      pairs = a.ends ++ below.onto [a.label] a.output ++ rest := by
  cases h with
  | leaf target _ others =>
    refine ⟨[], _, ?_, others, by simp⟩
    rw [target]
    rfl
  | node target lt _ at' inside others =>
    refine ⟨_, _, ?_, others, rfl⟩
    rw [target]
    exact ⟨_, lt, at', inside⟩

/-! ## Listing -/

/-- What is still to come of a listing. -/
inductive WalkSpells (nodes : Bytes) : Walk → Pairs → Prop
  | nil : WalkSpells nodes [] []
  | level {bound : Nat} {l : Level} {up : Walk} {pairs rest : Pairs} (le : bound ≤ nodes.length)
      (here : Spells nodes bound l.arcs pairs) (above : WalkSpells nodes up rest) :
      WalkSpells nodes (l :: up) (pairs.onto l.key l.output ++ rest)

/-- The next key is on the first level if that has arcs. Each node that is passed on the way to it
lies before the one above it, so there are enough descents. -/
theorem next_level {t : Transducer} (h : Spells t.nodes bound arcs pairs) :
    ∀ (key output : Bytes) {descents : Nat} {up : Walk} {p : Bytes × Bytes} {rest more : Pairs},
      bound ≤ descents → bound ≤ t.nodes.length → pairs = p :: rest →
      WalkSpells t.nodes up more →
      ∃ walk, t.next descents (⟨arcs, key, output⟩ :: up)
          = some (.ok (key ++ p.1, output ++ p.2), walk) ∧
        WalkSpells t.nodes walk (rest.onto key output ++ more) := by
  induction h with
  | nil => intro _ _ _ _ _ _ _ _ _ hpairs; exact absurd hpairs (by simp)
  | @leaf bound a arcs rest' target final others _ =>
    intro key output descents up p rest more _ hle hpairs hup
    rw [Arc.ends, if_pos final, List.singleton_append, List.cons.injEq] at hpairs
    obtain ⟨rfl, rfl⟩ := hpairs
    refine ⟨⟨arcs, key, output⟩ :: up, ?_, .level hle others hup⟩
    rw [next]
    simp only [target, List.append_assoc]
  | @node bound address a arcs arcs' below rest' target lt quiet at' inside others ihInside _ =>
    intro key output descents up p rest more hdescents hle hpairs hup
    have hup' : WalkSpells t.nodes (⟨arcs, key, output⟩ :: up) (rest'.onto key output ++ more) :=
      .level hle others hup
    have hinside : WalkSpells t.nodes
        (⟨arcs', key ++ [a.label], output ++ a.output⟩ :: ⟨arcs, key, output⟩ :: up)
        (below.onto (key ++ [a.label]) (output ++ a.output)
          ++ (rest'.onto key output ++ more)) :=
      .level (Nat.le_of_lt (Nat.lt_of_lt_of_le lt hle)) inside hup'
    rw [next]
    simp only [target, arcs_eq at']
    by_cases hfinal : a.final = true
    · rw [Arc.ends, if_pos hfinal, List.singleton_append, List.cons_append, List.cons.injEq]
        at hpairs
      obtain ⟨rfl, rfl⟩ := hpairs
      -- the key that ends at the node comes before those below it
      refine ⟨_, by rw [if_pos hfinal, List.append_assoc], ?_⟩
      rw [Pairs.onto_append, Pairs.onto_onto, List.append_assoc]
      exact hinside
    · -- No key ends here, so the next one is on the level below.
      obtain ⟨descents, rfl⟩ : ∃ n, descents = n + 1 := ⟨descents - 1, by omega⟩
      obtain ⟨q, below', rfl⟩ := List.exists_cons_of_ne_nil (inside.ne_nil at'.nonempty)
      rw [Arc.ends, if_neg hfinal, List.nil_append, Pairs.onto_cons, List.cons_append,
        List.cons.injEq] at hpairs
      obtain ⟨rfl, rfl⟩ := hpairs
      obtain ⟨walk, hnext, hwalk⟩ :=
        ihInside (key ++ [a.label]) (output ++ a.output)
          (show address ≤ descents by omega) (by omega) rfl hup'
      refine ⟨walk, ?_, ?_⟩
      · rw [if_neg hfinal]
        simp only [hnext, List.append_assoc]
      · rw [Pairs.onto_append, Pairs.onto_onto, List.append_assoc]
        exact hwalk

/-- **The next key is the first that is still to come.** -/
theorem next_spec {t : Transducer} {walk : Walk} (h : WalkSpells t.nodes walk pairs) :
    (pairs = [] → t.next t.nodes.length walk = none) ∧
      ∀ p rest, pairs = p :: rest →
        ∃ walk', t.next t.nodes.length walk = some (.ok p, walk') ∧
          WalkSpells t.nodes walk' rest := by
  induction h with
  | nil =>
    refine ⟨fun _ => ?_, fun p rest hpairs => absurd hpairs (by simp)⟩
    rw [next]
  | @level bound l up pairs more le here above ih =>
    obtain ⟨arcs, key, output⟩ := l
    cases arcs with
    | nil =>
      cases here
      rw [next]
      exact ih
    | cons a arcs =>
      obtain ⟨q, rest, rfl⟩ :=
        List.exists_cons_of_ne_nil (here.ne_nil (show a :: arcs ≠ [] by simp))
      refine ⟨fun hnil => absurd hnil (by simp), ?_⟩
      intro p rest' hpairs
      rw [Pairs.onto_cons, List.cons_append, List.cons.injEq] at hpairs
      obtain ⟨rfl, rfl⟩ := hpairs
      exact next_level here key output le le rfl above

/-- A place in the listing gives what is still to come, as far as it is asked for. -/
theorem itemsFrom_eq {t : Transducer} (limit : Nat) :
    ∀ {pairs : Pairs} {walk : Walk}, WalkSpells t.nodes walk pairs →
      t.itemsFrom limit walk = (pairs.take limit).map .ok := by
  induction limit with
  | zero => intro pairs walk _; rfl
  | succ limit ih =>
    intro pairs walk h
    rw [itemsFrom]
    cases pairs with
    | nil => rw [(next_spec h).1 rfl]; rfl
    | cons p pairs =>
      obtain ⟨walk', hnext, hwalk'⟩ := (next_spec h).2 p pairs rfl
      rw [hnext]
      simp only [ih hwalk', List.take_succ_cons, List.map_cons]

/-- The listing starts at the root, if there is one. -/
theorem Below.exists_start {t : Transducer} {below : Pairs}
    (h : Below t.nodes t.nodes.length t.root below) :
    ∃ walk, WalkSpells t.nodes walk below ∧ ((t.root.map t.arcs = none ∧ walk = []) ∨
      ∃ arcs, t.root.map t.arcs = some (.ok arcs) ∧ walk = [⟨arcs, [], []⟩]) := by
  cases hroot : t.root with
  | none =>
    rw [hroot] at h
    obtain rfl := h
    exact ⟨[], .nil, .inl ⟨rfl, rfl⟩⟩
  | some address =>
    rw [hroot] at h
    obtain ⟨arcs, hlt, hat, hspells⟩ := h
    have hlevel := WalkSpells.level (l := ⟨arcs, [], []⟩) (Nat.le_of_lt hlt) hspells .nil
    rw [List.append_nil, Pairs.onto_empty] at hlevel
    exact ⟨_, hlevel, .inr ⟨arcs, by rw [Option.map_some, arcs_eq hat], rfl⟩⟩

/-- **The keys are listed in order**, as many as are asked for; the empty key comes first, when it
is one of them. -/
theorem items_eq {t : Transducer} (h : t.Denotes pairs) (limit : Nat) :
    t.items limit = (pairs.take limit).map .ok := by
  obtain ⟨-, below, rfl, hbelow⟩ := h
  obtain ⟨walk, hwalk, hstart⟩ := hbelow.exists_start
  have hlist := fun limit => itemsFrom_eq limit hwalk
  rw [items]
  rcases hstart with ⟨hroot, rfl⟩ | ⟨arcs, hroot, rfl⟩
  · rw [hroot]
    cases t.emptyOutput with
    | none => simpa using hlist limit
    | some output =>
      cases limit with
      | zero => rfl
      | succ limit => simpa using hlist limit
  · rw [hroot]
    cases t.emptyOutput with
    | none => simpa using hlist limit
    | some output =>
      cases limit with
      | zero => rfl
      | succ limit => simpa using hlist limit

/-- **All keys are listed, in order.** -/
theorem entries_eq {t : Transducer} (h : t.Denotes pairs) : t.entries = .ok pairs := by
  rw [entries, items_eq h, h.size, List.take_length]
  clear h
  induction pairs with
  | nil => rfl
  | cons p pairs ih =>
    rw [List.map_cons, List.mapM_cons, ih]
    rfl

/-! ## One key -/

/-- What a path puts out that starts with an arc has its label first. -/
theorem head?_of_mem {a : Arc} {below : Pairs} {p : Bytes × Bytes}
    (h : p ∈ a.ends ++ below.onto [a.label] a.output) : p.1.head? = some a.label := by
  rcases List.mem_append.mp h with hends | hbelow
  · rw [Arc.ends] at hends
    split at hends
    · obtain rfl := List.mem_singleton.mp hends
      rfl
    · simp at hends
  · obtain ⟨q, -, rfl⟩ := Pairs.mem_onto.mp hbelow
    rfl

/-- No path is empty. -/
theorem Spells.exists_label (h : Spells nodes bound arcs pairs) {p : Bytes × Bytes}
    (hp : p ∈ pairs) : ∃ a ∈ arcs, p.1.head? = some a.label := by
  induction arcs generalizing pairs with
  | nil => cases h; simp at hp
  | cons a arcs ih =>
    obtain ⟨below, rest, -, hrest, rfl⟩ := h.uncons
    rcases List.mem_append.mp hp with hp | hp
    · exact ⟨a, List.mem_cons_self .., head?_of_mem hp⟩
    · obtain ⟨b, hb, hlabel⟩ := ih hrest hp
      exact ⟨b, List.mem_cons_of_mem _ hb, hlabel⟩

/-- Without an arc for a byte no key starts with it. -/
theorem Spells.find_none (h : Spells nodes bound arcs pairs) {label : UInt8}
    (hfind : arcs.find? (·.label = label) = none) :
    ∀ p ∈ pairs, p.1.head? ≠ some label := by
  intro p hp hhead
  obtain ⟨a, ha, hlabel⟩ := h.exists_label hp
  rw [List.find?_eq_none] at hfind
  rw [hlabel, Option.some.injEq] at hhead
  exact hfind a ha (by simpa using hhead)

/-- The keys that start with a label are those on the paths of its arc. -/
theorem Spells.find_some (h : Spells nodes bound arcs pairs) (hsorted : Sorted arcs)
    {label : UInt8} {a : Arc} (hfind : arcs.find? (·.label = label) = some a) :
    ∃ below, Below nodes bound a.target below ∧
      ∀ p, (p ∈ pairs ∧ p.1.head? = some label)
        ↔ p ∈ a.ends ++ below.onto [a.label] a.output := by
  induction arcs generalizing pairs with
  | nil => simp at hfind
  | cons b arcs ih =>
    obtain ⟨below, rest, hbelow, hrest, rfl⟩ := h.uncons
    rw [Sorted, List.pairwise_cons] at hsorted
    by_cases hb : b.label = label
    · rw [List.find?_cons_of_pos (by simpa using hb), Option.some.injEq] at hfind
      subst hfind
      refine ⟨below, hbelow, fun p => ⟨?_, fun hp => ?_⟩⟩
      · rintro ⟨hp, hhead⟩
        rcases List.mem_append.mp hp with hp | hp
        · exact hp
        · -- The labels of the other arcs are above this one.
          obtain ⟨c, hc, hlabel⟩ := hrest.exists_label hp
          rw [hlabel, Option.some.injEq] at hhead
          have hlt := hsorted.1 c hc
          rw [hb, hhead] at hlt
          exact absurd hlt (UInt8.lt_irrefl _)
      · exact ⟨List.mem_append_left _ hp, by rw [head?_of_mem hp, hb]⟩
    · -- nothing on the paths of the first arc starts with the label
      rw [List.find?_cons_of_neg (by simpa using hb)] at hfind
      obtain ⟨below', hbelow', hiff⟩ := ih hrest hsorted.2 hfind
      refine ⟨below', hbelow', fun p => ?_⟩
      rw [← hiff p]
      constructor
      · rintro ⟨hp, hhead⟩
        rcases List.mem_append.mp hp with hp | hp
        · rw [head?_of_mem hp, Option.some.injEq] at hhead
          exact absurd hhead hb
        · exact ⟨hp, hhead⟩
      · rintro ⟨hp, hhead⟩
        exact ⟨List.mem_append_right _ hp, hhead⟩

/-- No key of a path from a node on is empty. -/
theorem Below.ne_nil {node : Option Nat} (h : Below nodes bound node pairs) {p : Bytes × Bytes}
    (hp : p ∈ pairs) : p.1 ≠ [] := by
  cases node with
  | none => rw [show pairs = [] from h] at hp; simp at hp
  | some address =>
    obtain ⟨arcs, -, -, hspells⟩ := h
    obtain ⟨a, -, hlabel⟩ := hspells.exists_label hp
    intro hnil
    rw [hnil] at hlabel
    simp at hlabel

/-- The keys that start with a label: the one that its arc ends, and those below it. -/
theorem Spells.mem_cons_iff (h : Spells nodes bound arcs pairs) (hsorted : Sorted arcs)
    {label : UInt8} {a : Arc} (hfind : arcs.find? (·.label = label) = some a) :
    ∃ below, Below nodes bound a.target below ∧ ∀ key output, (label :: key, output) ∈ pairs ↔
      (key = [] ∧ a.final = true ∧ output = a.output ++ a.finalOutput) ∨
        ∃ more, (key, more) ∈ below ∧ output = a.output ++ more := by
  obtain ⟨below, hbelow, hiff⟩ := h.find_some hsorted hfind
  have hlabel : a.label = label := by simpa using List.find?_some hfind
  refine ⟨below, hbelow, fun key output => ?_⟩
  have hmem : (label :: key, output) ∈ pairs
      ↔ (label :: key, output) ∈ a.ends ++ below.onto [a.label] a.output := by
    rw [← hiff]
    exact ⟨fun h => ⟨h, rfl⟩, And.left⟩
  rw [hmem, List.mem_append]
  refine or_congr ?ends ?beyond
  case ends =>
    rw [Arc.ends, hlabel]
    split <;> simp_all
  case beyond =>
    rw [Pairs.mem_onto, hlabel]
    constructor
    · rintro ⟨q, hq, heq⟩
      rw [List.singleton_append, Prod.mk.injEq, List.cons.injEq] at heq
      obtain ⟨⟨-, rfl⟩, rfl⟩ := heq
      exact ⟨q.2, hq, rfl⟩
    · rintro ⟨more, hmore, rfl⟩
      exact ⟨(key, more), hmore, rfl⟩

/-- What is found of a key after some output: what it puts out below, if it is there. -/
def Found (below : Pairs) (key output : Bytes) (found : Option Bytes) : Prop :=
  ∀ result, found = some result ↔ ∃ more, (key, more) ∈ below ∧ result = output ++ more

/-- A key that is not below is not found. -/
theorem found_none {below : Pairs} {key output : Bytes} (h : ∀ more, (key, more) ∉ below) :
    Found below key output none :=
  fun _ => ⟨fun hnot => absurd hnot (by simp), fun ⟨more, hmem, _⟩ => absurd hmem (h more)⟩

/-- Following the rest of a key finds what it puts out, if it is one of the keys below. -/
theorem follow_spec {t : Transducer} (key : Bytes) :
    ∀ {bound : Nat} {node : Option Nat} {below : Pairs} (output : Bytes),
      Below t.nodes bound node below →
      ∃ found, t.follow node output key = .ok found ∧ Found below key output found := by
  induction key with
  | nil =>
    intro bound node below output h
    exact ⟨none, rfl, found_none fun more hmem => h.ne_nil hmem rfl⟩
  | cons label rest ih =>
    intro bound node below output h
    cases node with
    | none =>
      obtain rfl : below = [] := h
      exact ⟨none, rfl, found_none fun more hmem => by simp at hmem⟩
    | some address =>
      obtain ⟨arcs, -, hat, hspells⟩ := h
      rw [follow, arc?_eq hat label]
      cases hfind : arcs.find? (·.label = label) with
      | none => exact ⟨none, rfl, found_none fun more hmem => hspells.find_none hfind _ hmem rfl⟩
      | some a =>
        obtain ⟨below', hbelow', hiff⟩ := hspells.mem_cons_iff hat.sorted hfind
        cases rest with
        | nil =>
          -- the key ends with this arc, and none further on is so short
          have hends : ∀ more, ([label], more) ∈ below ↔
              a.final = true ∧ more = a.output ++ a.finalOutput := by
            intro more
            rw [hiff, or_iff_left]
            · exact and_iff_right rfl
            · rintro ⟨more', hmore', -⟩
              exact hbelow'.ne_nil hmore' rfl
          refine ⟨if a.final then some (output ++ a.output ++ a.finalOutput) else none, rfl,
            fun result => ?_⟩
          constructor
          · intro hfound
            split at hfound
            next hfinal =>
              rw [Option.some.injEq, List.append_assoc] at hfound
              exact ⟨_, (hends _).mpr ⟨hfinal, rfl⟩, hfound.symm⟩
            next => simp at hfound
          · rintro ⟨more, hmore, rfl⟩
            obtain ⟨hfinal, rfl⟩ := (hends more).mp hmore
            rw [if_pos hfinal, List.append_assoc]
        | cons next rest =>
          obtain ⟨found, hfound, hiff'⟩ := ih (output ++ a.output) hbelow'
          have hbeyond : ∀ more, (label :: next :: rest, more) ∈ below ↔
              ∃ more', (next :: rest, more') ∈ below' ∧ more = a.output ++ more' := by
            intro more
            rw [hiff, or_iff_right]
            rintro ⟨hnil, -⟩
            simp at hnil
          refine ⟨found, hfound, fun result => ?_⟩
          rw [hiff']
          constructor
          · rintro ⟨more, hmore, rfl⟩
            exact ⟨_, (hbeyond _).mpr ⟨more, hmore, rfl⟩, List.append_assoc ..⟩
          · rintro ⟨more, hmore, rfl⟩
            obtain ⟨more', hmore', rfl⟩ := (hbeyond more).mp hmore
            exact ⟨more', hmore', (List.append_assoc ..).symm⟩

/-- **What a key puts out is found**, and nothing for what is no key. -/
theorem get?_spec {t : Transducer} (h : t.Denotes pairs) (key : Bytes) :
    ∃ found, t.get? key = .ok found ∧ ∀ output, found = some output ↔ (key, output) ∈ pairs := by
  obtain ⟨-, below, rfl, hbelow⟩ := h
  rw [get?]
  by_cases hkey : key = []
  · subst hkey
    refine ⟨t.emptyOutput, rfl, fun output => ?_⟩
    have hnot : ([], output) ∉ below := fun hmem => hbelow.ne_nil hmem rfl
    simp [hnot, eq_comm]
  · obtain ⟨found, hfound, hiff⟩ := follow_spec key [] hbelow
    refine ⟨found, by rw [if_neg (by simpa using hkey)]; exact hfound, fun output => ?_⟩
    rw [hiff]
    simp [hkey, eq_comm]

/-! ## The longest key at the front of a text -/

/-- What the empty key puts out is kept apart. -/
theorem Denotes.emptyOutput_eq {t : Transducer} (h : t.Denotes pairs) {output : Bytes}
    (hmem : ([], output) ∈ pairs) : t.emptyOutput = some output := by
  obtain ⟨-, below, rfl, hbelow⟩ := h
  rcases List.mem_append.mp hmem with hmem | hmem
  · simpa using hmem
  · exact absurd rfl (hbelow.ne_nil hmem)

/-- The longest of the keys at the front of a text: its length and what it puts out. -/
def Longest (pairs : Pairs) (text : Bytes) : Option (Nat × Bytes) → Prop
  | none => ∀ p ∈ pairs, ¬ p.1 <+: text
  | some (length, output) =>
    (∃ key, (key, output) ∈ pairs ∧ key <+: text ∧ key.length = length) ∧
      ∀ p ∈ pairs, p.1 <+: text → p.1.length ≤ length

/-- What is found past a node: the longest key below that is at the front of the text, or else the
best there was before. -/
def LongestBelow (below : Pairs) (text output : Bytes) (depth : Nat)
    (best found : Option (Nat × Bytes)) : Prop :=
  (found = best ∧ ∀ p ∈ below, ¬ p.1 <+: text) ∨
    ∃ p ∈ below, p.1 <+: text ∧ found = some (depth + p.1.length, output ++ p.2) ∧
      ∀ q ∈ below, q.1 <+: text → q.1.length ≤ p.1.length

/-- What is found past an arc is what is found past its node: the key that the arc ends is the best
there is before those below. -/
theorem LongestBelow.of_arc {a : Arc} {label : UInt8} {rest output : Bytes} {below below' : Pairs}
    {depth : Nat} {best found : Option (Nat × Bytes)} (hne : ∀ p ∈ below, p.1 ≠ [])
    (hiff : ∀ key output, (label :: key, output) ∈ below ↔
      (key = [] ∧ a.final = true ∧ output = a.output ++ a.finalOutput) ∨
        ∃ more, (key, more) ∈ below' ∧ output = a.output ++ more)
    (h : LongestBelow below' rest (output ++ a.output) (depth + 1)
      (if a.final then some (depth + 1, output ++ a.output ++ a.finalOutput) else best) found) :
    LongestBelow below (label :: rest) output depth best found := by
  -- a key at the front of the text is ended by the arc or goes on below it
  have hfront : ∀ p ∈ below, p.1 <+: label :: rest →
      (p.1.length = 1 ∧ a.final = true) ∨ ∃ q ∈ below', q.1 <+: rest ∧ p.1 = label :: q.1 := by
    rintro ⟨key, bytes⟩ hp hpre
    obtain ⟨tail, rfl, htail⟩ := (List.prefix_cons_iff.mp hpre).resolve_left (hne _ hp)
    rcases (hiff tail bytes).mp hp with ⟨rfl, hfinal, -⟩ | ⟨more, hmore, -⟩
    · exact .inl ⟨rfl, hfinal⟩
    · exact .inr ⟨_, hmore, htail, rfl⟩
  rcases h with ⟨rfl, hnone⟩ | ⟨p, hp, hpre, rfl, hlongest⟩
  · by_cases hfinal : a.final = true
    · refine .inr ⟨([label], a.output ++ a.finalOutput), (hiff _ _).mpr (.inl ⟨rfl, hfinal, rfl⟩),
        ⟨rest, rfl⟩, ?_, fun q hq hqpre => ?_⟩
      · rw [if_pos hfinal, List.append_assoc]
        rfl
      · rcases hfront q hq hqpre with ⟨hone, -⟩ | ⟨q', hq', hqpre', -⟩
        · exact Nat.le_of_eq hone
        · exact absurd hqpre' (hnone q' hq')
    · refine .inl ⟨by rw [if_neg hfinal], fun q hq hqpre => ?_⟩
      rcases hfront q hq hqpre with ⟨-, hends⟩ | ⟨q', hq', hqpre', -⟩
      · exact hfinal hends
      · exact hnone q' hq' hqpre'
  · refine .inr ⟨(label :: p.1, a.output ++ p.2), (hiff _ _).mpr (.inr ⟨p.2, hp, rfl⟩),
      (List.prefix_cons_inj label).mpr hpre, ?_, fun q hq hqpre => ?_⟩
    · rw [List.length_cons, List.append_assoc, Nat.add_assoc, Nat.add_comm 1]
    · rcases hfront q hq hqpre with ⟨hone, -⟩ | ⟨q', hq', hqpre', hkey⟩
      · rw [hone, List.length_cons]
        omega
      · have := hlongest q' hq' hqpre'
        rw [hkey, List.length_cons, List.length_cons]
        omega

/-- The longest lookup finds the longest beginning that is a key below. -/
theorem followLongest_spec {t : Transducer} (text : Bytes) :
    ∀ {bound : Nat} {node : Option Nat} {below : Pairs} (output : Bytes) (depth : Nat)
      (best : Option (Nat × Bytes)), Below t.nodes bound node below →
      ∃ found, t.followLongest node output depth best text = .ok found ∧
        LongestBelow below text output depth best found := by
  induction text with
  | nil =>
    intro bound node below output depth best h
    exact ⟨best, rfl, .inl ⟨rfl, fun p hp hnil => h.ne_nil hp (List.prefix_nil.mp hnil)⟩⟩
  | cons label rest ih =>
    intro bound node below output depth best h
    have hne : ∀ p ∈ below, p.1 ≠ [] := fun p hp => h.ne_nil hp
    cases node with
    | none =>
      obtain rfl : below = [] := h
      exact ⟨best, rfl, .inl ⟨rfl, fun p hp => by simp at hp⟩⟩
    | some address =>
      obtain ⟨arcs, -, hat, hspells⟩ := h
      rw [followLongest, arc?_eq hat label]
      cases hfind : arcs.find? (·.label = label) with
      | none =>
        refine ⟨best, rfl, .inl ⟨rfl, fun p hp hpre => ?_⟩⟩
        obtain ⟨tail, hkey, -⟩ := (List.prefix_cons_iff.mp hpre).resolve_left (hne p hp)
        exact hspells.find_none hfind p hp (by rw [hkey]; rfl)
      | some a =>
        obtain ⟨below', hbelow', hiff⟩ := hspells.mem_cons_iff hat.sorted hfind
        obtain ⟨found, hfound, hlongest⟩ := ih (output ++ a.output) (depth + 1)
          (if a.final then some (depth + 1, output ++ a.output ++ a.finalOutput) else best) hbelow'
        exact ⟨found, hfound, hlongest.of_arc hne hiff⟩

/-- **The longest key at the front of a text is found.** -/
theorem longest?_spec {t : Transducer} (h : t.Denotes pairs) (text : Bytes) :
    ∃ found, t.longest? text = .ok found ∧ Longest pairs text found := by
  obtain ⟨-, below, rfl, hbelow⟩ := h
  obtain ⟨found, hfound, hcases⟩ :=
    followLongest_spec text [] 0 (t.emptyOutput.map (0, ·)) hbelow
  refine ⟨found, hfound, ?_⟩
  rcases hcases with ⟨rfl, hnone⟩ | ⟨p, hp, hpre, rfl, hlongest⟩
  · cases hempty : t.emptyOutput with
    | none =>
      intro p hp
      exact hnone p (by simpa [hempty] using hp)
    | some output =>
      refine ⟨⟨[], by simp, List.nil_prefix, rfl⟩, fun p hp hpre => ?_⟩
      rcases List.mem_append.mp hp with hp | hp
      · obtain rfl : p = ([], output) := by simpa using hp
        exact Nat.le_refl _
      · exact absurd hpre (hnone p hp)
  · rw [Nat.zero_add]
    refine ⟨⟨p.1, List.mem_append_right _ hp, hpre, rfl⟩, fun q hq hqpre => ?_⟩
    rcases List.mem_append.mp hq with hq | hq
    · obtain ⟨output, -, rfl⟩ := List.mem_map.mp hq
      exact Nat.zero_le _
    · exact hlongest q hq hqpre

end Transducer

end Lexicon

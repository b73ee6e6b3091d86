import Lexicon.Proofs.Transducer.Building
import Mathlib.Data.List.Sort

/-!
# Minimal transducers

A transducer is minimal if it has no node twice: two nodes that are reached from the root tell the
rest of some key apart. Its outputs are pushed towards the root if nothing that is put out behind an
arc could be put out on it (`Minimal`).

The second is what makes the first a matter of the nodes themselves. Where the outputs behind every
arc begin with nothing in common, an arc puts out all that the keys through it do
(`eq_of_onto_eq`), so what the keys below a node put out determines its arcs, up to the nodes that
these lead to; and those come before it.

> **`Canonical.minimal`** — nodes without a double, each with bare outputs behind its arcs, make a
> minimal transducer.
-/

namespace Lexicon

/-! ## Outputs with nothing in common -/

namespace Pairs

/-- What is put out begins with nothing in common. -/
def Bare (pairs : Pairs) : Prop := ∀ common, (∀ p ∈ pairs, common <+: p.2) → common = []

variable {pairs pairs' : Pairs} {output output' common : Bytes}

/-- Without a key nothing is bare. -/
theorem Bare.ne_nil (h : Bare pairs) : pairs ≠ [] := by
  rintro rfl
  exact absurd (h [0] (by simp)) (by simp)

/-- A key without output leaves nothing to push forward. -/
theorem bare_of_mem {key : Bytes} (h : (key, []) ∈ pairs) : Bare pairs :=
  fun _ hcommon => List.prefix_nil.mp (hcommon _ h)

/-- All that keys have in common is put out before what they do not. -/
theorem Bare.isPrefix (h : Bare pairs) (hcommon : ∀ p ∈ pairs, common <+: output ++ p.2) :
    common <+: output := by
  obtain ⟨q, hq⟩ := List.exists_mem_of_ne_nil _ h.ne_nil
  rcases List.prefix_or_prefix_of_prefix (hcommon q hq) (List.prefix_append output q.2) with
    hle | ⟨more, rfl⟩
  · exact hle
  · -- what `output` leaves of it would begin them all
    have hmore : more = [] :=
      h more fun p hp => (List.prefix_append_right_inj output).mp (hcommon p hp)
    simp [hmore]

/-- An output in front is taken off again. -/
theorem mem_onto_append {key more : Bytes} :
    (key, output ++ more) ∈ onto [] output pairs ↔ (key, more) ∈ pairs := by
  rw [mem_onto]
  constructor
  · rintro ⟨q, hq, heq⟩
    obtain ⟨rfl, hmore⟩ := Prod.mk.inj heq
    rw [List.append_cancel_left hmore]
    exact hq
  · exact fun h => ⟨_, h, rfl⟩

/-- **What is put out in all determines what is put out first**, if nothing more of it could be. -/
theorem eq_of_onto_eq (h : Bare pairs) (h' : Bare pairs')
    (heq : ∀ p, p ∈ onto [] output pairs ↔ p ∈ onto [] output' pairs') :
    output = output' ∧ ∀ p, p ∈ pairs ↔ p ∈ pairs' := by
  have hbegins : ∀ {output : Bytes} {pairs : Pairs}, ∀ p ∈ onto [] output pairs,
      output <+: p.2 := by
    intro output pairs p hp
    obtain ⟨q, -, rfl⟩ := mem_onto.mp hp
    exact List.prefix_append ..
  have hle : output <+: output' :=
    h'.isPrefix fun p hp => hbegins _ ((heq _).mpr (mem_onto.mpr ⟨p, hp, rfl⟩))
  have hge : output' <+: output :=
    h.isPrefix fun p hp => hbegins _ ((heq _).mp (mem_onto.mpr ⟨p, hp, rfl⟩))
  obtain rfl := hle.eq_of_length_le hge.length_le
  exact ⟨rfl, fun p => mem_onto_append.symm.trans ((heq _).trans mem_onto_append)⟩

end Pairs

/-- What follows an arc: nothing more of the key that ends with it, and the keys below it. -/
def Arc.rests (a : Arc) (below : Pairs) : Pairs :=
  (if a.final then [([], a.finalOutput)] else []) ++ below

namespace Transducer

variable {nodes : Bytes} {bound bound' : Nat} {arcs arcs' : List Arc} {pairs pairs' : Pairs}

/-! ## What nodes spell -/

/-- There is one node at an address. -/
theorem NodeAt.unique {address : Nat} (h : NodeAt nodes address arcs)
    (h' : NodeAt nodes address arcs') : arcs = arcs' := by
  have harcs := arcs_eq (t := ⟨nodes, none, none, 0⟩) h
  rw [arcs_eq h'] at harcs
  exact (Except.ok.inj harcs).symm

/-- Arcs spell the same whatever bounds them. -/
theorem Spells.unique (h : Spells nodes bound arcs pairs) :
    ∀ {bound' : Nat} {pairs' : Pairs}, Spells nodes bound' arcs pairs' → pairs = pairs' := by
  induction h with
  | nil => intro _ _ h'; cases h'; rfl
  | leaf target _ _ ih =>
    intro _ _ h'
    cases h' with
    | leaf _ _ others => rw [ih others]
    | node target' => rw [target] at target'; cases target'
  | node target _ _ at' _ _ ihInside ihOthers =>
    intro _ _ h'
    cases h' with
    | leaf target' => rw [target] at target'; cases target'
    | node target' _ _ at'' inside others =>
      rw [target, Option.some.injEq] at target'
      subst target'
      obtain rfl := at'.unique at''
      rw [ihInside inside, ihOthers others]

/-- A node has one row of keys below it only. -/
theorem Below.unique {node : Option Nat} (h : Below nodes bound node pairs)
    (h' : Below nodes bound' node pairs') : pairs = pairs' := by
  cases node with
  | none => exact Eq.trans h (Eq.symm h')
  | some address =>
    obtain ⟨arcs, -, hat, hspells⟩ := h
    obtain ⟨arcs', -, hat', hspells'⟩ := h'
    obtain rfl := hat.unique hat'
    exact hspells.unique hspells'

/-- What is below a node stays below it when nodes are added. -/
theorem Below.mono {node : Option Nat} {more : Bytes} (h : Below nodes bound node pairs)
    (hle : bound ≤ bound') : Below (nodes ++ more) bound' node pairs := by
  cases node with
  | none => exact h
  | some address =>
    obtain ⟨arcs, hlt, hat, hspells⟩ := h
    exact ⟨arcs, Nat.lt_of_lt_of_le hlt hle, hat.mono, hspells.mono (Nat.le_refl _)⟩

/-- Below a node there is some key. -/
theorem Below.eq_nil_iff {node : Option Nat} (h : Below nodes bound node pairs) :
    pairs = [] ↔ node = none := by
  cases node with
  | none => exact iff_of_true h rfl
  | some address =>
    obtain ⟨arcs, -, hat, hspells⟩ := h
    exact iff_of_false (hspells.ne_nil hat.nonempty) (by simp)

/-- An arc that ends no key puts nothing out for one. -/
theorem Spells.quiet (h : Spells nodes bound arcs pairs) :
    ∀ a ∈ arcs, a.final = false → a.finalOutput = [] := by
  induction h with
  | nil => simp
  | leaf _ final _ ih =>
    refine List.forall_mem_cons.mpr ⟨fun hnot => ?_, ih⟩
    rw [final] at hnot
    cases hnot
  | node _ _ quiet _ _ _ _ ihOthers => exact List.forall_mem_cons.mpr ⟨quiet, ihOthers⟩

/-- The keys that start with the label of an arc are those that follow it. -/
theorem Spells.mem_label_iff (h : Spells nodes bound arcs pairs) (hsorted : Sorted arcs) {a : Arc}
    (ha : a ∈ arcs) {below : Pairs} (hbelow : Below nodes bound' a.target below)
    (key output : Bytes) :
    (a.label :: key, output) ∈ pairs ↔ (key, output) ∈ (a.rests below).onto [] a.output := by
  obtain ⟨below', hbelow', hiff⟩ :=
    h.mem_cons_iff hsorted ((hsorted.imp UInt8.ne_of_lt).find?_eq ha)
  obtain rfl := hbelow.unique hbelow'
  rw [hiff, Arc.rests, Pairs.onto_append, List.mem_append]
  refine or_congr ?_ ?_
  · split <;> simp_all
  · rw [Pairs.mem_onto]
    constructor
    · rintro ⟨more, hmore, rfl⟩
      exact ⟨_, hmore, rfl⟩
    · rintro ⟨q, hq, heq⟩
      obtain ⟨rfl, rfl⟩ := Prod.mk.inj heq
      exact ⟨q.2, hq, rfl⟩

/-! ## Nodes without a double -/

section

variable {known : Nat → Prop} {a b : Arc} {below below' : Pairs}

/-- The arc by itself is a key just if it is final. -/
theorem mem_rests_nil {node : Option Nat} (h : Below nodes bound node below) (output : Bytes) :
    ([], output) ∈ a.rests below ↔ a.final = true ∧ output = a.finalOutput := by
  have hnot : ([], output) ∉ below := fun hmem => h.ne_nil hmem rfl
  rw [Arc.rests, List.mem_append, or_iff_left hnot]
  split <;> simp_all

/-- What is behind an arc, beyond its own key, is below its target. -/
theorem mem_rests_iff {p : Bytes × Bytes} (hp : p.1 ≠ []) : p ∈ a.rests below ↔ p ∈ below := by
  rw [Arc.rests, List.mem_append, or_iff_right]
  intro hmem
  split at hmem
  · exact hp (congrArg Prod.fst (List.mem_singleton.mp hmem))
  · simp at hmem

/-- What follows two arcs is the same just if they end the same key and the same keys are below. -/
theorem rests_mem_iff {node node' : Option Nat} (h : Below nodes bound node below)
    (h' : Below nodes bound' node' below')
    (hsame : ∀ p, p ∈ a.rests below ↔ p ∈ b.rests below') :
    (∀ output, (a.final = true ∧ output = a.finalOutput) ↔
      (b.final = true ∧ output = b.finalOutput)) ∧ ∀ p, p ∈ below ↔ p ∈ below' := by
  refine ⟨fun output => ?_, fun p => ?_⟩
  · rw [← mem_rests_nil h, hsame, mem_rests_nil h']
  · by_cases hp : p.1 = []
    · exact iff_of_false (fun hmem => h.ne_nil hmem hp) fun hmem => h'.ne_nil hmem hp
    · rw [← mem_rests_iff hp (a := a), hsame, mem_rests_iff hp]

/-- Arcs end keys alike if they put the same out for them, and nothing where they end none. -/
theorem final_eq_of_iff (hquiet : a.final = false → a.finalOutput = [])
    (hquiet' : b.final = false → b.finalOutput = [])
    (h : ∀ output, (a.final = true ∧ output = a.finalOutput) ↔
      (b.final = true ∧ output = b.finalOutput)) :
    a.final = b.final ∧ a.finalOutput = b.finalOutput := by
  have hfinal : a.final = b.final :=
    Bool.eq_iff_iff.mpr ⟨fun ha => ((h _).mp ⟨ha, rfl⟩).1, fun hb => ((h _).mpr ⟨hb, rfl⟩).1⟩
  refine ⟨hfinal, ?_⟩
  cases ha : a.final with
  | true => exact ((h _).mp ⟨ha, rfl⟩).2
  | false => rw [hquiet ha, hquiet' (hfinal ▸ ha)]

/-- Keys are below both arcs or below neither, so both lead to a node or neither does. -/
theorem Below.target_eq {node node' : Option Nat} (h : Below nodes bound node below)
    (h' : Below nodes bound' node' below') (hmem : ∀ p, p ∈ below ↔ p ∈ below')
    (heq : ∀ x y, node = some x → node' = some y → x = y) : node = node' := by
  have hnil : below = [] ↔ below' = [] := by
    rw [List.eq_nil_iff_forall_not_mem, List.eq_nil_iff_forall_not_mem]
    exact forall_congr' fun p => not_congr (hmem p)
  rw [h.eq_nil_iff, h'.eq_nil_iff] at hnil
  cases hnode : node with
  | none => exact (hnil.mp hnode).symm
  | some x =>
    cases hnode' : node' with
    | none =>
      rw [hnil.mpr hnode'] at hnode
      cases hnode
    | some y => rw [heq x y hnode hnode']

/-- What follows the arc begins with nothing in common, and the node it leads to is known. -/
structure Tight (nodes : Bytes) (known : Nat → Prop) (a : Arc) : Prop where
  known : ∀ next, a.target = some next → known next
  bare : ∃ below, Below nodes nodes.length a.target below ∧ (a.rests below).Bare

/-- Arcs with the same label and the same keys are the same, if they lead to the same node. -/
theorem Tight.eq (ha : Tight nodes known a) (hb : Tight nodes known b)
    (hlabel : a.label = b.label) (hquiet : a.final = false → a.finalOutput = [])
    (hquiet' : b.final = false → b.finalOutput = [])
    (hbelow : Below nodes bound a.target below) (hbelow' : Below nodes bound' b.target below')
    (hsame : ∀ p, p ∈ (a.rests below).onto [] a.output ↔ p ∈ (b.rests below').onto [] b.output)
    (htarget : ∀ x y, a.target = some x → b.target = some y → (∀ p, p ∈ below ↔ p ∈ below') →
      x = y) : a = b := by
  obtain ⟨_, hown, hbare⟩ := ha.bare
  obtain rfl := hbelow.unique hown
  obtain ⟨_, hown', hbare'⟩ := hb.bare
  obtain rfl := hbelow'.unique hown'
  obtain ⟨houtput, hrests⟩ := Pairs.eq_of_onto_eq hbare hbare' hsame
  obtain ⟨hends, hmem⟩ := rests_mem_iff hown hown' hrests
  obtain ⟨hfinal, hfinalOutput⟩ := final_eq_of_iff hquiet hquiet' hends
  have htargets : a.target = b.target :=
    hown.target_eq hown' hmem fun x y hx hy => htarget x y hx hy hmem
  cases a
  cases b
  simp_all

/-- Every tight arc is on the path of a key. -/
theorem Spells.exists_mem (h : Spells nodes bound arcs pairs) (hsorted : Sorted arcs)
    (htight : ∀ a ∈ arcs, Tight nodes known a) (ha : a ∈ arcs) :
    ∃ p : Bytes × Bytes, (a.label :: p.1, p.2) ∈ pairs := by
  obtain ⟨below, hbelow, hbare⟩ := (htight a ha).bare
  obtain ⟨q, hq⟩ := List.exists_mem_of_ne_nil _ hbare.ne_nil
  refine ⟨(q.1, a.output ++ q.2), (h.mem_label_iff hsorted ha hbelow _ _).mpr ?_⟩
  exact Pairs.mem_onto_append.mpr hq

/-- Of these nodes none is there twice, and they lead to each other by tight arcs. -/
structure Canonical (nodes : Bytes) (known : Nat → Prop) : Prop where
  node : ∀ x, known x → ∃ arcs pairs, NodeAt nodes x arcs ∧ Spells nodes x arcs pairs ∧
    ∀ a ∈ arcs, Tight nodes known a
  once : ∀ x y arcs, known x → known y → NodeAt nodes x arcs → NodeAt nodes y arcs → x = y

/-- **The keys below a node tell it from the others.** -/
theorem Canonical.eq_of_mem_iff (h : Canonical nodes known) (x : Nat) :
    ∀ {y bound bound' : Nat} {pairs pairs' : Pairs}, known x → known y →
      Below nodes bound (some x) pairs → Below nodes bound' (some y) pairs' →
      (∀ p, p ∈ pairs ↔ p ∈ pairs') → x = y := by
  induction x using Nat.strong_induction_on with
  | _ x ih =>
    intro y bound bound' pairs pairs' hx hy hbelow hbelow' hsame
    obtain ⟨arcs, _, hat, hspells, htight⟩ := h.node x hx
    obtain ⟨arcs', _, hat', hspells', htight'⟩ := h.node y hy
    obtain rfl := hbelow.unique ⟨arcs, hat.address_lt, hat, hspells⟩
    obtain rfl := hbelow'.unique ⟨arcs', hat'.address_lt, hat', hspells'⟩
    -- the arcs with a label agree, as what they lead to comes before `x`
    have harc : ∀ a ∈ arcs, ∀ b ∈ arcs', a.label = b.label → a = b := by
      intro a ha b hb hlabel
      obtain ⟨below, hown, -⟩ := (htight a ha).bare
      obtain ⟨below', hown', -⟩ := (htight' b hb).bare
      refine (htight a ha).eq (htight' b hb) hlabel (hspells.quiet a ha) (hspells'.quiet b hb) hown
        hown' (fun p => ?_) fun u v hu hv hmem => ?_
      · rw [← hspells.mem_label_iff hat.sorted ha hown, hsame, hlabel,
          hspells'.mem_label_iff hat'.sorted hb hown']
      · rw [hu] at hown
        rw [hv] at hown'
        exact ih u (hspells.target_lt a ha u hu) ((htight a ha).known u hu)
          ((htight' b hb).known v hv) hown hown' hmem
    obtain rfl : arcs = arcs' := by
      refine hat.sorted.eq_of_mem_iff hat'.sorted fun a => ⟨fun ha => ?_, fun hb => ?_⟩
      · obtain ⟨p, hp⟩ := hspells.exists_mem hat.sorted htight ha
        obtain ⟨b, hb, hlabel⟩ := hspells'.exists_label ((hsame _).mp hp)
        rwa [harc a ha b hb (by simpa using hlabel)]
      · obtain ⟨p, hp⟩ := hspells'.exists_mem hat'.sorted htight' hb
        obtain ⟨b, hb', hlabel⟩ := hspells.exists_label ((hsame _).mpr hp)
        rwa [← harc b hb' a hb (by simpa using Eq.symm hlabel)]
    exact h.once x y arcs hx hy hat hat'

end

/-! ## Minimal transducers -/

/-- The nodes that the paths from the root lead to. -/
inductive Reachable (t : Transducer) : Nat → Prop
  | root {x : Nat} (here : t.root = some x) : Reachable t x
  | arc {x next : Nat} {arcs : List Arc} {a : Arc} (from' : Reachable t x)
      (arcs_eq : t.arcs x = .ok arcs) (mem : a ∈ arcs) (target : a.target = some next) :
      Reachable t next

/-- What may be put out behind an arc: by the key that ends with it, or by one that goes on. -/
def Continues (t : Transducer) (a : Arc) (output : Bytes) : Prop :=
  (a.final = true ∧ output = a.finalOutput) ∨ ∃ key, t.follow a.target [] key = .ok (some output)

/-- The transducer has no node too many, and puts out everything as early as it can. -/
structure Minimal (t : Transducer) : Prop where
  readable : ∀ x, t.Reachable x →
    (∃ arcs, t.arcs x = .ok arcs) ∧ ∀ key, ∃ found, t.follow (some x) [] key = .ok found
  pushed : ∀ x arcs a common, t.Reachable x → t.arcs x = .ok arcs → a ∈ arcs →
    (∀ output, t.Continues a output → common <+: output) → common = []
  shared : ∀ x y, t.Reachable x → t.Reachable y →
    (∀ key, t.follow (some x) [] key = t.follow (some y) [] key) → x = y

variable {t : Transducer} {node : Option Nat} {below : Pairs} {known : Nat → Prop}

/-- What a key puts out from a node on. -/
theorem Below.follow_iff (h : Below t.nodes bound node below) (key output : Bytes) :
    t.follow node [] key = .ok (some output) ↔ (key, output) ∈ below := by
  obtain ⟨found, hfound, hiff⟩ := follow_spec key [] h
  rw [hfound, Except.ok.injEq, hiff]
  constructor
  · rintro ⟨more, hmore, rfl⟩
    exact hmore
  · exact fun hmem => ⟨output, hmem, rfl⟩

/-- A node that is reached from the root is known. -/
theorem Canonical.of_reachable (h : Canonical t.nodes known)
    (hroot : ∀ x, t.root = some x → known x) {x : Nat} (hx : t.Reachable x) : known x := by
  induction hx with
  | root here => exact hroot _ here
  | @arc x _ _ a _ harcs ha htarget ih =>
    obtain ⟨arcs, _, hat, -, htight⟩ := h.node x ih
    rw [arcs_eq hat] at harcs
    obtain rfl := Except.ok.inj harcs
    exact (htight a ha).known _ htarget

/-- **Nodes without a double make a minimal transducer**, if every arc between them is tight. -/
theorem Canonical.minimal (h : Canonical t.nodes known)
    (hroot : ∀ x, t.root = some x → known x) : t.Minimal := by
  have hspelled : ∀ x, t.Reachable x → ∃ below, Below t.nodes t.nodes.length (some x) below := by
    intro x hx
    obtain ⟨arcs, below, hat, hspells, -⟩ := h.node x (h.of_reachable hroot hx)
    exact ⟨below, arcs, hat.address_lt, hat, hspells⟩
  refine ⟨fun x hx => ⟨?_, fun key => ?_⟩, fun x arcs a common hx harcs ha hcommon => ?_,
    fun x y hx hy hsame => ?_⟩
  · obtain ⟨arcs, _, hat, -⟩ := h.node x (h.of_reachable hroot hx)
    exact ⟨arcs, arcs_eq hat⟩
  · obtain ⟨below, hbelow⟩ := hspelled x hx
    obtain ⟨found, hfound, -⟩ := follow_spec key [] hbelow
    exact ⟨found, hfound⟩
  · obtain ⟨arcs', _, hat, -, htight⟩ := h.node x (h.of_reachable hroot hx)
    rw [arcs_eq hat] at harcs
    obtain rfl := Except.ok.inj harcs
    obtain ⟨below, hbelow, hbare⟩ := (htight a ha).bare
    refine hbare common fun p hp => hcommon p.2 ?_
    by_cases hkey : p.1 = []
    · obtain ⟨key, output⟩ := p
      obtain rfl : key = [] := hkey
      exact .inl ((mem_rests_nil hbelow output).mp hp)
    · exact .inr ⟨p.1, (hbelow.follow_iff _ _).mpr ((mem_rests_iff hkey).mp hp)⟩
  · obtain ⟨below, hbelow⟩ := hspelled x hx
    obtain ⟨below', hbelow'⟩ := hspelled y hy
    refine h.eq_of_mem_iff x (h.of_reachable hroot hx) (h.of_reachable hroot hy) hbelow hbelow'
      fun p => ?_
    rw [← hbelow.follow_iff, hsame, hbelow'.follow_iff]

end Transducer

end Lexicon

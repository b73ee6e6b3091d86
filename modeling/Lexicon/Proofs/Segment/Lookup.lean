import Lexicon.Proofs.Block.Selection
import Lexicon.Proofs.Block.Trie
import Lexicon.Segment.Reader

/-!
# Looking terms up

A reader of a field that was stored as the tree of its terms gives back the terms.
`FieldReader.Shows f sizes terms runs` is what the reader needs to be given: the index of the root
and the runs in the stream of blocks.

> **`walkWithin_follows`** — a walk goes through the pieces of a run and of the runs below it,
> leaving out only what holds nothing wanted (`Met`);
> **`Shows.walk_spec`** — so it meets the terms of the run that start with what is wanted, in order;
> **`startingWith_eq`** — so listing gives these terms of the field;
> **`seek?_eq`** — and looking up one term reads the one block in which it can be.
-/

namespace Lexicon

/-! ## Where the terms of a run are -/

variable {sizes : BlockSizes} {stored : Run → Prop} {entries : List Entry} {terms : Terms}
  {runs : List Run}

/-- The terms that start with a string. -/
def Terms.startingWith (terms : Terms) (p : Bytes) : Terms :=
  terms.filter fun t => p.isPrefixOf t.1

theorem Terms.mem_startingWith {p : Bytes} {t : Bytes × TermState} :
    t ∈ terms.startingWith p ↔ t ∈ terms ∧ p <+: t.1 := by
  rw [startingWith, List.mem_filter, List.isPrefixOf_iff_prefix]

theorem Terms.startingWith_append (a b : Terms) (p : Bytes) :
    Terms.startingWith (a ++ b) p = a.startingWith p ++ b.startingWith p := List.filter_append ..

theorem Terms.startingWith_of_all {p : Bytes} (h : ∀ t ∈ terms, p <+: t.1) :
    terms.startingWith p = terms :=
  List.filter_eq_self.mpr fun t ht => List.isPrefixOf_iff_prefix.mpr (h t ht)

theorem Terms.startingWith_of_none {p : Bytes} (h : ∀ t ∈ terms, ¬ p <+: t.1) :
    terms.startingWith p = [] :=
  List.filter_eq_nil_iff.mpr fun t ht hp => h t ht (List.isPrefixOf_iff_prefix.mp hp)

/-- What starts with the longer of two prefixes starts with the shorter. -/
theorem Terms.startingWith_startingWith {p q : Bytes} (h : p <+: q) (terms : Terms) :
    Terms.startingWith (terms.startingWith p) q = terms.startingWith q := by
  rw [startingWith, startingWith, List.filter_filter]
  refine List.filter_congr fun t _ => ?_
  rw [Bool.and_eq_left_iff_imp, List.isPrefixOf_iff_prefix, List.isPrefixOf_iff_prefix]
  exact fun hq => h.trans hq

/-- A run stands for the terms that start with its prefix. -/
structure Run.StandsFor (sizes : BlockSizes) (stored : Run → Prop) (r : Run) (inside : Terms)
    (below : List Run) : Prop where
  sound : r.Sound sizes
  here : stored r
  stands : Stands sizes stored r.entries inside below

theorem Run.StandsFor.startingWith {r : Run} {inside : Terms} {below : List Run}
    (h : r.StandsFor sizes stored inside below) : ∀ t ∈ inside, r.stem <+: t.1 := by
  intro t ht
  obtain ⟨e, he, hpre⟩ := h.stands.exists_key ht
  exact (h.sound.within e he).prefix_key.trans hpre

/-- **Every run of entries stands for the terms that start with its prefix.** -/
theorem Stands.exists_standsFor (h : Stands sizes stored entries terms runs) :
    (entries.Pairwise fun x y => x.key < y.key) → Apart entries → ∀ r ∈ runs, ∃ below,
      r.StandsFor sizes stored (terms.startingWith r.stem) below ∧
        blockCount (r :: below) ≤ blockCount runs ∧ below ⊆ runs := by
  induction h with
  | nil => simp
  | @term key state rest terms runs others ih =>
    intro hordered hapart r hr
    obtain ⟨hlt, hordered⟩ := List.pairwise_cons.mp hordered
    obtain ⟨below, hstands, hcount, hsub⟩ := ih hordered (List.pairwise_cons.mp hapart).2 r hr
    -- the runs are those of later blocks, which sort after the term
    have hno : ¬ r.stem <+: key := by
      intro hpre
      obtain ⟨b, hb, hpre'⟩ := others.exists_block r hr
      exact Bytes.not_lt_of_extends (hpre'.trans hpre) (hlt _ hb)
    refine ⟨below, ?_, hcount, hsub⟩
    rwa [Terms.startingWith, List.filter_cons_of_neg (by simpa using hno)]
  | @block b r inside terms rest below runs stem fp proper sound here inner index others ihInner
      ihOthers =>
    intro hordered hapart r' hr'
    obtain ⟨hlt, hordered⟩ := List.pairwise_cons.mp hordered
    obtain ⟨hno, hapart⟩ := List.pairwise_cons.mp hapart
    have hself : r.StandsFor sizes stored inside below := ⟨sound, here, inner⟩
    obtain ⟨hin, hout⟩ := Stands.isPrefix_iff hlt (fun x hx => hno x hx rfl) sound stem inner others
    rw [Terms.startingWith_append, List.cons_append, blockCount_cons, blockCount_append]
    rcases List.mem_append.mp hr' with hmem | hmem
    · -- the run is that of the block or below it: no term behind the block starts with its prefix
      have hnone : Terms.startingWith terms r'.stem = [] := by
        refine Terms.startingWith_of_none fun t ht hpre => ?_
        exact others.not_mem_others (e := .block b) hlt (fun x hx => hno x hx rfl)
          ((hin r' hmem).trans hpre) ht
      rw [hnone, List.append_nil]
      rcases List.mem_cons.mp hmem with rfl | hmem
      · refine ⟨below, ?_, ?_, fun x hx => ?_⟩
        · rwa [Terms.startingWith_of_all hself.startingWith]
        · rw [blockCount_cons]
          omega
        · exact List.mem_cons_of_mem _ (List.mem_append_left _ hx)
      · obtain ⟨below', hstands, hcount, hsub⟩ := ihInner sound.ordered sound.apart r' hmem
        refine ⟨below', hstands, by omega, fun x hx => ?_⟩
        exact List.mem_cons_of_mem _ (List.mem_append_left _ (hsub hx))
    · -- the run is behind the block, and no term inside the block starts with its prefix
      have hnone : Terms.startingWith inside r'.stem = [] := by
        refine Terms.startingWith_of_none fun t ht hpre => ?_
        have hstem : b.stem <+: t.1 := stem ▸ hself.startingWith t ht
        rcases List.prefix_or_prefix_of_prefix hstem hpre with hpre' | hpre'
        · exact hout r' hmem hpre'
        · obtain ⟨b', hb', hpre''⟩ := others.exists_block r' hmem
          exact Bytes.not_lt_of_extends (hpre''.trans hpre') (hlt _ hb')
      rw [hnone, List.nil_append]
      obtain ⟨below', hstands, hcount, hsub⟩ := ihOthers hordered hapart r' hmem
      refine ⟨below', hstands, by omega, fun x hx => ?_⟩
      exact List.mem_cons_of_mem _ (List.mem_append_right _ (hsub hx))

/-- The run of all terms stands for them. -/
theorem Rooted.exists_standsFor {index : Transducer} (h : Rooted sizes stored index terms runs) :
    ∀ r ∈ runs, ∃ below, r.StandsFor sizes stored (terms.startingWith r.stem) below ∧
      blockCount (r :: below) ≤ blockCount runs ∧ below ⊆ runs := by
  obtain ⟨r, below, rfl, hstem, hsound, hhere, inner, -⟩ := h
  intro r' hr'
  rcases List.mem_cons.mp hr' with rfl | hr'
  · have hall : terms.startingWith r'.stem = terms :=
      Terms.startingWith_of_all fun t _ => hstem ▸ List.nil_prefix
    refine ⟨below, ?_, Nat.le_refl _, fun x hx => List.mem_cons_of_mem _ hx⟩
    rw [hall]
    exact ⟨hsound, hhere, inner⟩
  · obtain ⟨below', hstands, hcount, hsub⟩ :=
      inner.exists_standsFor hsound.ordered hsound.apart r' hr'
    refine ⟨below', hstands, ?_, fun x hx => List.mem_cons_of_mem _ (hsub hx)⟩
    rw [blockCount_cons r below]
    omega

/-- There are no more runs than blocks. -/
theorem Rooted.length_le_blockCount {index : Transducer}
    (h : Rooted sizes stored index terms runs) : runs.length ≤ blockCount runs :=
  Lexicon.length_le_blockCount fun r hr => by
    obtain ⟨_, hstands, -, -⟩ := h.exists_standsFor r hr
    exact hstands.sound.nonempty

/-- There are no more blocks than places for them. -/
theorem Rooted.blockCount_le {index : Transducer} {stop : Nat}
    (h : Rooted sizes stored index terms runs) (hnodup : (offsets runs).Nodup)
    (hbefore : ∀ r, stored r → ∀ p ∈ r.pieces, p.fp < stop) : blockCount runs ≤ stop :=
  Lexicon.blockCount_le hnodup fun n hn => by
    obtain ⟨r, hr, p, hp, rfl⟩ := mem_offsets.mp hn
    obtain ⟨_, hstands, -, -⟩ := h.exists_standsFor r hr
    exact hbefore r hstands.here p hp

/-- The terms are in order. -/
theorem Rooted.increasing {index : Transducer} (h : Rooted sizes stored index terms runs) :
    terms.Pairwise fun s t => s.1 < t.1 := by
  obtain ⟨r, below, -, -, hsound, -, inner, -⟩ := h
  exact inner.increasing hsound.ordered hsound.apart

/-- Every block among entries has its run. -/
theorem Stands.exists_run (h : Stands sizes stored entries terms runs) {b : SubBlock}
    (hb : .block b ∈ entries) : ∃ r ∈ runs, r.stem = b.stem ∧ r.fp = b.fp := by
  induction h with
  | nil => simp at hb
  | term _ ih => exact ih (by simpa using hb)
  | @block b' r _ _ _ _ _ stem fp _ _ _ _ _ _ _ ihOthers =>
    rcases List.mem_cons.mp hb with heq | hb
    · obtain rfl := Entry.block.inj heq
      exact ⟨r, List.mem_cons_self .., stem.symm, fp.symm⟩
    · obtain ⟨r', hr', hsame⟩ := ihOthers hb
      exact ⟨r', List.mem_append_right _ hr', hsame⟩

/-! ## Where in a run a term can be -/

/-- **The byte after the prefix of a run tells the piece** in which its entries with that byte
are. -/
theorem Run.Sound.select_spec {r : Run} (hsound : r.Sound sizes) (label : Option UInt8) :
    ∃ p ∈ r.pieces, r.location.select label = (p.fp, p.hasTerms) ∧
      ∀ e ∈ r.entries, e.lead r.stem.length = label → e ∈ p.entries :=
  hsound.sliced.select_spec hsound.nonempty
    (hsound.ordered.imp_of_mem fun hx hy hlt =>
      Entry.rank_le (hsound.within _ hx).prefix_key (hsound.within _ hy).prefix_key hlt) label

/-! ## Walking a run -/

theorem Terms.kept_append (a b : Terms) (hasFreqs : Bool) :
    Terms.kept (a ++ b) hasFreqs = a.kept hasFreqs ++ b.kept hasFreqs := List.map_append

/-- The terms among what was met. -/
def termsMet (found : List Found) : Terms :=
  found.filterMap fun
    | .term key state => some (key, state)
    | .block _ => none

theorem termsMet_append (a b : List Found) :
    termsMet (a ++ b) = termsMet a ++ termsMet b := List.filterMap_append

namespace FieldReader

/-- Whatever the codec, the walk ends and meets just these terms. -/
def Meets (walk : LongsCodec → Walked) (terms : Terms) : Prop :=
  ∀ codec, ∃ found codec', walk codec = some (.ok found codec') ∧ termsMet found = terms

/-- A walk without failure goes on with what it met. -/
theorem andThen_ok {w : Walked} {found : List Found} {codec : LongsCodec}
    (h : w = some (.ok found codec)) (next : List Found → LongsCodec → Walked) :
    w.andThen next = next found codec := by
  rw [h]
  rfl

/-- A walk that ends is the answer of its lookup. -/
theorem settled_ok {walk : LongsCodec → Walked} {found : List Found} {codec codec' : LongsCodec}
    (h : walk codec = some (.ok found codec')) : settled walk codec = .ok found codec' := by
  rw [settled, h]
  rfl

variable {f : FieldReader} {stem : Bytes}

theorem append_drop {key : Bytes} (h : stem <+: key) : stem ++ key.drop stem.length = key := by
  obtain ⟨rest, rfl⟩ := h
  rw [List.drop_left]

theorem eq_of_drop_eq {key key' : Bytes} (h : stem <+: key) (h' : stem <+: key')
    (heq : key.drop stem.length = key'.drop stem.length) : key = key' := by
  rw [← append_drop h, heq, append_drop h']

/-- What a walk for `wanted` meets of the terms that these pieces hold: each piece as the block that
is read at its offset, and the terms that are wanted. -/
inductive Met (f : FieldReader) (wanted : Bytes) : Terms → List Piece → List Found → Prop
  | nil : Met f wanted [] [] []
  | term {key : Bytes} {state : TermState} (starts : wanted <+: key) :
      Met f wanted [(key, state)] [] [.term key (state.normalized f.info.options.hasFreqs)]
  /-- Pieces that hold nothing wanted may be left out. -/
  | passed {terms : Terms} {pieces : List Piece} (some : wanted ≠ [])
      (unwanted : terms.startingWith wanted = []) : Met f wanted terms pieces []
  | append {a b : Terms} {pieces pieces' : List Piece} {found found' : List Found}
      (here : Met f wanted a pieces found) (behind : Met f wanted b pieces' found') :
      Met f wanted (a ++ b) (pieces ++ pieces') (found ++ found')
  | block {fp : Nat} {stem : Bytes} {first : Bool} {b : Block} {codec codec' : LongsCodec}
      {entries : List Entry} {terms : Terms} {pieces : List Piece} {found : List Found}
      (reads : f.block fp codec = .ok b codec')
      (entries_eq : b.entries = entries.map (Entry.seen stem.length f.info.options.hasFreqs))
      (inside : Met f wanted terms pieces found) :
      Met f wanted terms (⟨fp, entries⟩ :: pieces) (.block (shape fp stem first b) :: found)
  | perm {terms : Terms} {pieces pieces' : List Piece} {found : List Found}
      (met : Met f wanted terms pieces found) (same : pieces.Perm pieces') :
      Met f wanted terms pieces' found

/-- The terms that are met are those that start with what is wanted. -/
theorem Met.termsMet_eq {wanted : Bytes} {terms : Terms} {pieces : List Piece} {found : List Found}
    (h : f.Met wanted terms pieces found) :
    termsMet found = (terms.startingWith wanted).kept f.info.options.hasFreqs := by
  induction h with
  | nil => rfl
  | term starts =>
    rw [Terms.startingWith_of_all fun t ht => by rwa [List.mem_singleton.mp ht]]
    rfl
  | passed _ unwanted =>
    rw [unwanted]
    rfl
  | append _ _ ihHere ihBehind =>
    rw [termsMet_append, ihHere, ihBehind, Terms.startingWith_append, Terms.kept_append]
  | block _ _ _ ih => exact ih
  | perm _ _ ih => exact ih

/-- Whatever the codec, the walk ends, and this is what it meets of the terms in these pieces. -/
def Follows (f : FieldReader) (wanted : Bytes) (walk : LongsCodec → Walked) (terms : Terms)
    (pieces : List Piece) : Prop :=
  ∀ codec, ∃ found codec', walk codec = some (.ok found codec') ∧ f.Met wanted terms pieces found

/-- The entries of a block that was read lead to the terms they stand for, if the runs below do. -/
theorem visit_follows (wanted : Bytes) {walks : Nat → Bytes → LongsCodec → Walked}
    (h : Stands sizes stored entries terms runs) :
    (∀ e ∈ entries, stem <+: e.key) →
      (∀ r inside below', r.StandsFor sizes stored inside below' →
        blockCount (r :: below') ≤ blockCount runs →
        f.Follows wanted (walks r.fp r.stem) inside ((r :: below').flatMap (·.pieces))) →
      f.Follows wanted
        (visit wanted stem walks (entries.map (Entry.seen stem.length f.info.options.hasFreqs)))
        terms (runs.flatMap (·.pieces)) := by
  induction h with
  | nil => intro _ _ codec; exact ⟨[], codec, by rw [List.map_nil, visit], .nil⟩
  | @term key state rest terms runs others ih =>
    intro hstem hbelow codec
    have hkey : stem ++ key.drop stem.length = key := append_drop (hstem _ (List.mem_cons_self ..))
    obtain ⟨found, codec', hfound, hmet⟩ :=
      ih (fun e he => hstem e (List.mem_cons_of_mem _ he)) hbelow codec
    refine ⟨if wanted.isPrefixOf key then
        .term key (state.normalized f.info.options.hasFreqs) :: found else found, codec', ?_, ?_⟩
    · rw [List.map_cons, Entry.seen, visit, andThen_ok hfound, hkey]
    · split
      next hstarts => exact .append (.term (List.isPrefixOf_iff_prefix.mp hstarts)) hmet
      next hno =>
        -- a key that does not start with what is wanted shows that something is
        rw [List.isPrefixOf_iff_prefix] at hno
        have hpassed : f.Met wanted [(key, state)] [] [] :=
          .passed (fun hnil => hno (hnil ▸ List.nil_prefix))
            (Terms.startingWith_of_none fun t ht => by rwa [List.mem_singleton.mp ht])
        exact hpassed.append hmet
  | @block b r inside terms rest below' runs bstem fp proper sound here inner index others _
      ihOthers =>
    intro hstem hbelow codec
    have hself : r.StandsFor sizes stored inside below' := ⟨sound, here, inner⟩
    have hkey : stem ++ b.stem.drop stem.length = b.stem :=
      append_drop (hstem _ (List.mem_cons_self ..))
    rw [List.cons_append, blockCount_cons, blockCount_append] at hbelow
    have hrest := ihOthers (fun e he => hstem e (List.mem_cons_of_mem _ he))
      fun r' inside' below'' hr' hcount => hbelow r' inside' below'' hr' (by omega)
    rw [List.map_cons, Entry.seen, visit, hkey, List.flatMap_append]
    by_cases hopen : (wanted.isPrefixOf b.stem || b.stem.isPrefixOf wanted) = true
    · -- The run is walked, and the rest of the entries goes on with the codec it leaves.
      obtain ⟨found, mid, hfound, hmet⟩ :=
        hbelow r inside below' hself (by rw [blockCount_cons]; omega) codec
      obtain ⟨found', codec', hfound', hmet'⟩ := hrest mid
      rw [← fp, ← bstem] at hfound
      refine ⟨found ++ found', codec', ?_, hmet.append hmet'⟩
      rw [if_pos hopen, andThen_ok hfound, andThen_ok hfound']
    · -- No term below starts with what is wanted, for one of the two would start with the other.
      have hnone : inside.startingWith wanted = [] := by
        refine Terms.startingWith_of_none fun t ht hpre => hopen ?_
        have hcomparable := List.prefix_or_prefix_of_prefix hpre (hself.startingWith t ht)
        rwa [← bstem, ← List.isPrefixOf_iff_prefix, ← List.isPrefixOf_iff_prefix,
          ← Bool.or_eq_true] at hcomparable
      have hsome : wanted ≠ [] := fun hnil => hopen (by rw [hnil]; rfl)
      obtain ⟨found, codec', hfound, hmet⟩ := hrest codec
      exact ⟨found, codec', by rw [if_neg hopen, hfound], .append (.passed hsome hnone) hmet⟩

/-- The run is in the stream of blocks. -/
structure Held (terms : Bytes) (hasFreqs : Bool) (r : Run) : Prop where
  before : ∀ p ∈ r.pieces, p.fp < terms.length
  chain : Chain terms hasFreqs r.stem.length r.fp r.pieces

/-- **A walk follows a run and the runs below it**, if there may be a call for each of their
blocks. -/
theorem walkWithin_follows (wanted : Bytes) (calls : Nat) :
    ∀ (first : Bool) {fp : Nat} {stem : Bytes} {pieces : List Piece} {terms : Terms}
      {runs : List Run}, Chain f.terms f.info.options.hasFreqs stem.length fp pieces →
      (∀ e ∈ pieces.flatMap (·.entries), stem <+: e.key) →
      Stands sizes (Held f.terms f.info.options.hasFreqs) (pieces.flatMap (·.entries)) terms runs →
      pieces.length + blockCount runs ≤ calls →
      f.Follows wanted (f.walkWithin wanted calls first fp stem) terms
        (pieces ++ runs.flatMap (·.pieces)) := by
  induction calls with
  | zero =>
    intro first fp stem pieces terms runs hchain _ _ hblocks
    cases hchain with
    | last => exact absurd hblocks (by simp)
    | more => exact absurd hblocks (by simp)
  | succ calls ih =>
    intro first fp stem pieces terms runs hchain hstem hstands hblocks codec
    -- A run below has fewer blocks.
    have hbelow : ∀ {runs' : List Run}, blockCount runs' ≤ calls → ∀ r inside below',
        r.StandsFor sizes (Held f.terms f.info.options.hasFreqs) inside below' →
        blockCount (r :: below') ≤ blockCount runs' →
        f.Follows wanted (f.walkWithin wanted calls true r.fp r.stem) inside
          ((r :: below').flatMap (·.pieces)) := by
      intro runs' hle r inside below' hr hbelow
      rw [blockCount_cons] at hbelow
      rw [List.flatMap_cons]
      exact ih true hr.here.chain (fun e he => (hr.sound.within e he).prefix_key) hr.stands
        (by omega)
    cases hchain with
    | @last _ stop entries reads =>
      obtain ⟨b, mid, hblock, hlast, hentries, -⟩ := reads codec
      rw [List.flatMap_singleton] at hstem hstands
      rw [List.length_singleton] at hblocks
      obtain ⟨found, codec', hfound, hmet⟩ :=
        visit_follows wanted hstands hstem (hbelow (by omega)) mid
      rw [← hentries] at hfound
      refine ⟨.block (shape fp stem first b) :: found, codec', ?_, .block hblock hentries hmet⟩
      rw [walkWithin, show f.block fp codec = .ok b mid from hblock]
      simp only
      rw [andThen_ok hfound, if_pos hlast]
    | @more _ stop entries pieces reads others =>
      obtain ⟨b, mid, hblock, hlast, hentries, hstop⟩ := reads codec
      rw [List.flatMap_cons] at hstem hstands
      rw [List.length_cons] at hblocks
      obtain ⟨terms₁, terms₂, runs₁, runs₂, rfl, rfl, hfront, hback⟩ := hstands.split
      rw [blockCount_append] at hblocks
      obtain ⟨found, codec', hfound, hmet⟩ :=
        visit_follows wanted hfront (fun e he => hstem e (List.mem_append_left _ he))
          (hbelow (by omega)) mid
      rw [← hentries] at hfound
      obtain ⟨found', codec'', hfound', hmet'⟩ := ih false others
        (fun e he => hstem e (List.mem_append_right _ he)) hback (by omega) codec'
      -- what is below the block is visited before the rest of the run
      have hboth : (runs₁.flatMap (·.pieces) ++ (pieces ++ runs₂.flatMap (·.pieces))).Perm
          (pieces ++ (runs₁ ++ runs₂).flatMap (·.pieces)) := by
        rw [List.flatMap_append]
        exact List.perm_append_comm_assoc ..
      refine ⟨.block (shape fp stem first b) :: found ++ found', codec'', ?_,
        .block hblock hentries ((hmet.append hmet').perm hboth)⟩
      rw [walkWithin, show f.block fp codec = .ok b mid from hblock]
      simp only
      rw [andThen_ok hfound, if_neg (by simp [hlast]), hstop, andThen_ok hfound']

/-! ## The field -/

/-- The reader has been given the field of these terms, stored as these runs. -/
structure Shows (f : FieldReader) (sizes : BlockSizes) (terms : Terms) (runs : List Run) :
    Prop where
  index : ∃ t, f.index = some t ∧ Rooted sizes (Held f.terms f.info.options.hasFreqs) t terms runs
  offsets : (offsets runs).Nodup
  room : f.terms.length ≤ 2 ^ 62

/-- A walk can go as deep as there are blocks. -/
theorem Shows.blockCount_le (h : f.Shows sizes terms runs) : blockCount runs ≤ f.deepest := by
  obtain ⟨t, -, hrooted⟩ := h.index
  have hle := hrooted.blockCount_le h.offsets fun r hheld => hheld.before
  rw [deepest]
  omega

/-- **A walk of a run of the field meets its terms that start with what is wanted.** -/
theorem Shows.walk_spec (h : f.Shows sizes terms runs) {r : Run} {inside : Terms} {below : List Run}
    (hstands : r.StandsFor sizes (Held f.terms f.info.options.hasFreqs) inside below)
    (hcount : blockCount (r :: below) ≤ blockCount runs) (wanted : Bytes) :
    Meets (f.walk wanted true r.fp r.stem)
      ((inside.startingWith wanted).kept f.info.options.hasFreqs) := by
  rw [blockCount_cons] at hcount
  intro codec
  obtain ⟨found, codec', hfound, hmet⟩ := walkWithin_follows wanted f.deepest true
    hstands.here.chain (fun e he => (hstands.sound.within e he).prefix_key) hstands.stands
    (Nat.le_trans hcount h.blockCount_le) codec
  exact ⟨found, codec', hfound, hmet.termsMet_eq⟩

/-- Where a run is can be told from what the index says of it. -/
theorem decode_location {r : Run} (hsound : r.Sound sizes)
    (hheld : Held f.terms f.info.options.hasFreqs r) (hroom : f.terms.length ≤ 2 ^ 62) :
    Location.decode r.location.encode = .ok r.location := by
  refine Location.decode_encode ?_
  refine location_storable hsound.sliced hsound.nonempty hsound.fps fun p hp => ?_
  have := hheld.before p hp
  omega

/-- **The index leads to the run of the longest sealed prefix.** -/
theorem Shows.exists_longest (h : f.Shows sizes terms runs) (q : Bytes) :
    ∃ t r below, f.index = some t ∧
      (t.longest? q >>= located) = .ok (r.stem.length, r.location) ∧ r ∈ runs ∧
      r.StandsFor sizes (Held f.terms f.info.options.hasFreqs) (terms.startingWith r.stem) below ∧
      blockCount (r :: below) ≤ blockCount runs ∧ below ⊆ runs ∧ r.stem <+: q ∧
      ∀ r' ∈ runs, r'.stem <+: q → r'.stem.length ≤ r.stem.length := by
  obtain ⟨t, hindex, hrooted⟩ := h.index
  have hstands := hrooted.exists_standsFor
  obtain ⟨top, below, rfl, htop, -, -, -, hdenotes⟩ := hrooted
  obtain ⟨found, hfound, hlongest⟩ := Transducer.longest?_spec hdenotes q
  have hroot : top.pair ∈ (top :: below).map Run.pair := List.mem_cons_self ..
  cases found with
  | none =>
    -- the prefix of the run of all terms is empty, so some key is always there
    have hnil : top.stem <+: q := htop ▸ List.nil_prefix
    exact absurd hnil (hlongest top.pair hroot)
  | some found =>
    obtain ⟨length, output⟩ := found
    obtain ⟨⟨key, hmem, hpre, hlength⟩, hmax⟩ := hlongest
    obtain ⟨r, hr, hpair⟩ := List.mem_map.mp hmem
    obtain ⟨rfl, rfl⟩ := Prod.mk.inj hpair
    obtain ⟨below', hstandsFor, hcount, hsub⟩ := hstands r hr
    refine ⟨t, r, below', hindex, ?_, hr, hstandsFor, hcount, hsub, hpre,
      fun r' hr' hpre' => ?_⟩
    · rw [hfound]
      show (Location.decode r.location.encode >>= fun location => .ok (length, location)) = _
      rw [decode_location hstandsFor.sound hstandsFor.here h.room, ← hlength]
      rfl
    · rw [hlength]
      exact hmax r'.pair (List.mem_map_of_mem hr') hpre'

/-- **Listing gives the terms that start with what is wanted**, in order. -/
theorem startingWith_eq (h : f.Shows sizes terms runs) (wanted : Bytes) (codec : LongsCodec) :
    ∃ codec', f.startingWith wanted codec
      = .ok ((terms.startingWith wanted).kept f.info.options.hasFreqs) codec' := by
  obtain ⟨t, r, below, hindex, hlocated, -, hstands, hcount, -, hpre, -⟩ := h.exists_longest wanted
  have htake : wanted.take r.stem.length = r.stem := List.prefix_iff_eq_take.mp hpre |>.symm
  obtain ⟨found, codec', hfound, hterms⟩ := h.walk_spec hstands hcount wanted {}
  rw [Terms.startingWith_startingWith hpre] at hterms
  refine ⟨codec', ?_⟩
  rw [startingWith, hindex]
  simp only [hlocated]
  show (settled (f.walk wanted true r.location.fp (wanted.take r.stem.length)) >>= _)
    ({} : LongsCodec) = _
  rw [r.location_fp, htake, bind_ok (settled_ok hfound), ← hterms]
  rfl

/-! ## One term -/

/-- The term is found among the entries of a block that was read. -/
theorem findTerm_of_mem {hasFreqs : Bool} {key : Bytes} {state : TermState}
    (hstem : ∀ e ∈ entries, stem <+: e.key)
    (hordered : entries.Pairwise fun x y => x.key < y.key) (hmem : .term key state ∈ entries) :
    findTerm (key.drop stem.length) (entries.map (Entry.seen stem.length hasFreqs))
      = some (state.normalized hasFreqs) := by
  induction entries with
  | nil => simp at hmem
  | cons e entries ih =>
    obtain ⟨hfirst, hordered⟩ := List.pairwise_cons.mp hordered
    have hrest := ih (fun x hx => hstem x (List.mem_cons_of_mem _ hx)) hordered
    rcases List.mem_cons.mp hmem with rfl | hmem'
    · rw [List.map_cons, Entry.seen, findTerm, if_pos rfl]
    · have hkey : stem <+: key := hstem _ (List.mem_cons_of_mem _ hmem')
      have hlt : e.key < key := hfirst _ hmem'
      cases e with
      | term key' state' =>
        have hkey' : stem <+: key' := hstem _ (List.mem_cons_self ..)
        have hne : ¬ key'.drop stem.length = key.drop stem.length :=
          fun heq => Bytes.ne_of_lt hlt (eq_of_drop_eq hkey' hkey heq)
        rw [List.map_cons, Entry.seen, findTerm, if_neg hne]
        exact hrest hmem'
      | block b => exact hrest hmem'

theorem findTerm_eq_none {hasFreqs : Bool} {key : Bytes} (hkey : stem <+: key)
    (hstem : ∀ e ∈ entries, stem <+: e.key) (hnone : ∀ state, .term key state ∉ entries) :
    findTerm (key.drop stem.length) (entries.map (Entry.seen stem.length hasFreqs)) = none := by
  induction entries with
  | nil => rfl
  | cons e entries ih =>
    have hrest := ih (fun x hx => hstem x (List.mem_cons_of_mem _ hx))
      fun state hmem => hnone state (List.mem_cons_of_mem _ hmem)
    cases e with
    | term key' state =>
      have hkey' : stem <+: key' := hstem _ (List.mem_cons_self ..)
      have hne : ¬ key'.drop stem.length = key.drop stem.length := by
        intro heq
        obtain rfl := eq_of_drop_eq hkey' hkey heq
        exact hnone state (List.mem_cons_self ..)
      rw [List.map_cons, Entry.seen, findTerm, if_neg hne]
      exact hrest
    | block b => exact hrest

theorem lookup_eq_some {key : Bytes} {state : TermState}
    (hincreasing : terms.Pairwise fun s t => s.1 < t.1) (hmem : (key, state) ∈ terms) :
    terms.lookup key = some state := by
  induction terms with
  | nil => simp at hmem
  | cons t terms ih =>
    obtain ⟨hfirst, hincreasing⟩ := List.pairwise_cons.mp hincreasing
    rw [List.lookup_cons]
    rcases List.mem_cons.mp hmem with rfl | hmem
    · rw [beq_self_eq_true]
    · have hne : (key == t.1) = false := by
        rw [beq_eq_false_iff_ne]
        exact fun heq => Bytes.ne_of_lt (hfirst _ hmem) heq.symm
      rw [hne]
      exact ih hincreasing hmem

/-- A term that starts with the prefix of a run, and with that of no run below, is among its
entries. -/
theorem term_mem_entries {r : Run} {below : List Run} {term : Bytes} {state : TermState}
    (hstands : r.StandsFor sizes stored (terms.startingWith r.stem) below)
    (hmem : (term, state) ∈ terms) (hpre : r.stem <+: term)
    (hlongest : ∀ r' ∈ below, r'.stem <+: term → r'.stem.length ≤ r.stem.length) :
    .term term state ∈ r.entries := by
  have hin : (term, state) ∈ terms.startingWith r.stem := Terms.mem_startingWith.mpr ⟨hmem, hpre⟩
  rcases hstands.stands.mem_terms _ hin with hterm | ⟨b, hb, hpre'⟩
  · exact hterm
  · -- a block of the run has a longer prefix, and its own run below
    obtain ⟨r', hr', hstem, -⟩ := hstands.stands.exists_run hb
    have hle := hlongest r' hr' (hstem ▸ hpre')
    have hlonger := (hstands.sound.within _ hb).1
    rw [hstem] at hle
    omega

/-- Once the run is located, only the piece that its location tells is read, if that. -/
theorem seek?_located {t : Transducer} {r : Run} {p : Piece} {term : Bytes} {b : Block}
    {codec codec' : LongsCodec} (hindex : f.index = some t)
    (hlocated : (t.longest? term >>= located) = .ok (r.stem.length, r.location))
    (hselect : r.location.select term[r.stem.length]? = (p.fp, p.hasTerms))
    (hblock : f.block p.fp {} = .ok b codec') :
    f.seek? term codec = if p.hasTerms
      then .ok (findTerm (term.drop r.stem.length) b.entries) codec' else .ok none {} := by
  rw [seek?, hindex]
  simp only [hlocated]
  show (if !(r.location.select term[r.stem.length]?).2 then pure none
    else f.block (r.location.select term[r.stem.length]?).1 >>= fun b =>
      pure (findTerm (term.drop r.stem.length) b.entries) : Lookup (Option TermState)) {} = _
  rw [hselect]
  simp only
  cases p.hasTerms with
  | false => rfl
  | true =>
    show (f.block p.fp >>= _ : Lookup (Option TermState)) {} = _
    rw [bind_ok hblock]
    rfl

/-- **Looking a term up gives its state, if the field has it.** -/
theorem seek?_eq (h : f.Shows sizes terms runs) (term : Bytes) (codec : LongsCodec) :
    ∃ codec', f.seek? term codec
      = .ok ((terms.lookup term).map (·.normalized f.info.options.hasFreqs)) codec' := by
  obtain ⟨t, r, below, hindex, hlocated, -, hstands, -, hsub, hpre, hlongest⟩ :=
    h.exists_longest term
  have hincreasing : terms.Pairwise fun s t => s.1 < t.1 := by
    obtain ⟨t, -, hrooted⟩ := h.index
    exact hrooted.increasing
  obtain ⟨p, hp, hselect, hpiece⟩ := hstands.sound.select_spec term[r.stem.length]?
  have hsublist : p.entries.Sublist r.entries := by
    rw [Run.entries, List.flatMap_def]
    exact List.sublist_flatten_of_mem (List.mem_map_of_mem hp)
  have hstem : ∀ e ∈ p.entries, r.stem <+: e.key := fun e he =>
    (hstands.sound.within e (hsublist.subset he)).prefix_key
  obtain ⟨isLast, stop, reads⟩ := hstands.here.chain.exists_reads p hp
  obtain ⟨b, codec', hblock, -, hentries, -⟩ := reads {}
  rw [seek?_located hindex hlocated hselect hblock, hentries]
  by_cases hmem : ∃ state, (term, state) ∈ terms
  · obtain ⟨state, hmem⟩ := hmem
    have hentry := term_mem_entries hstands hmem hpre fun r' hr' => hlongest r' (hsub hr')
    have hpiece' := hpiece _ hentry rfl
    have hhas : p.hasTerms = true := List.any_eq_true.mpr ⟨_, hpiece', rfl⟩
    rw [if_pos hhas, findTerm_of_mem hstem (hstands.sound.ordered.sublist hsublist) hpiece',
      lookup_eq_some hincreasing hmem]
    exact ⟨codec', rfl⟩
  · have hnone : ∀ state, .term term state ∉ p.entries := by
      intro state hterm
      have hin := hstands.stands.mem_of_term (hsublist.subset hterm)
      exact hmem ⟨state, (Terms.mem_startingWith.mp hin).1⟩
    have hlookup : terms.lookup term = none := by
      rw [List.lookup_eq_none_iff]
      intro t ht
      rw [bne_iff_ne]
      rintro rfl
      exact hmem ⟨t.2, ht⟩
    -- whether the piece has terms at all or not, this one is not there
    rw [hlookup, findTerm_eq_none hpre hstem hnone]
    split
    · exact ⟨codec', rfl⟩
    · exact ⟨{}, rfl⟩

end FieldReader

end Lexicon

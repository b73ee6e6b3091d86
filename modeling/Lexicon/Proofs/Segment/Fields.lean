import Lexicon.Proofs.Block.Trie
import Lexicon.Proofs.Segment.Writing
import Lexicon.Proofs.Transducer.Format

/-!
# Writing all fields of a segment

A field that is finished is stored: its runs are in the stream of blocks, its index in the stream of
indexes, and its summary says so (`StoredField.In`). A field that is dropped leaves its runs behind
and no summary.

> **`complete_spec`** — a field is completed as what was written to it;
> **`runAll_spec`** — any number of fields, finished or dropped, leave the finished ones stored.
-/

namespace Lexicon

/-! ## Terms that leave room are few -/

/-- Terms that are not empty have a byte each. -/
theorem length_le_of_ne_nil {terms : Terms} (h : ∀ t ∈ terms, t.1 ≠ []) :
    terms.length ≤ termBytes terms := by
  induction terms with
  | nil => exact Nat.zero_le _
  | cons t terms ih =>
    have hfirst := List.length_pos_iff.mpr (h t (List.mem_cons_self ..))
    have hrest := ih fun x hx => h x (List.mem_cons_of_mem _ hx)
    rw [termBytes_cons, List.length_cons]
    omega

/-- Of different terms only one is empty. -/
theorem length_le_termBytes {terms : Terms} (h : terms.Pairwise fun s t => s.1 < t.1) :
    terms.length ≤ termBytes terms + 1 := by
  cases terms with
  | nil => exact Nat.zero_le _
  | cons t terms =>
    obtain ⟨hlt, -⟩ := List.pairwise_cons.mp h
    have hrest : terms.length ≤ termBytes terms := length_le_of_ne_nil fun x hx hnil => by
      have hempty := hlt x hx
      rw [hnil] at hempty
      exact List.not_lt_nil _ hempty
    rw [termBytes_cons, List.length_cons]
    omega

/-- Increasing terms that leave room are less than 2^64. -/
theorem Room.length_lt {terms : Terms} (hroom : Room terms)
    (h : terms.Pairwise fun s t => s.1 < t.1) : terms.length < 2 ^ 64 := by
  have hle := length_le_termBytes h
  rw [Room, Transducer.arcRoom, locationRoom] at hroom
  omega

/-- What the index puts out for the empty prefix is where the run of all terms is. -/
theorem Rooted.emptyOutput_eq {sizes : BlockSizes} {stored : Run → Prop} {index : Transducer}
    {terms : Terms} {runs : List Run} (h : Rooted sizes stored index terms runs) :
    ∃ r ∈ runs, r.Sound sizes ∧ index.emptyOutput = some r.location.encode := by
  obtain ⟨r, below, rfl, hstem, hsound, -, -, hdenotes⟩ := h
  refine ⟨r, List.mem_cons_self .., hsound, hdenotes.emptyOutput_eq ?_⟩
  rw [← hstem]
  exact List.mem_cons_self ..

/-- The bytes that the stored index of terms takes. -/
def indexRoom (terms : Terms) : Nat :=
  Transducer.arcRoom locationRoom * termBytes terms + locationRoom + 37

/-- **An index is stored in its room.** -/
theorem Rooted.length_save_le {sizes : BlockSizes} {stored : Run → Prop} {index : Transducer}
    {terms : Terms} {runs : List Run} (h : Rooted sizes stored index terms runs)
    (hnodes : index.nodes.length ≤ Transducer.arcRoom locationRoom * termBytes terms) :
    index.save.length ≤ indexRoom terms := by
  obtain ⟨r, -, hsound, houtput⟩ := h.emptyOutput_eq
  have hlocation : r.location.encode.length ≤ locationRoom := length_encode_location hsound.sliced
  have hempty : (Item.encodeAll (Transducer.optionalItems .block index.emptyOutput)).length
      ≤ locationRoom + 6 := by
    have hblock := Item.length_encode_block r.location.encode
    rw [houtput, Transducer.optionalItems, Option.elim_some, Item.encodeAll_cons,
      Item.encodeAll_singleton, List.length_append]
    show 1 + _ ≤ _
    omega
  have hroot : (Item.encodeAll (Transducer.optionalItems .nat64 index.root)).length ≤ 11 := by
    cases index.root with
    | none => decide
    | some root =>
      have hone := Item.length_encode_nat64 root
      rw [Transducer.optionalItems, Option.elim_some, Item.encodeAll_cons,
        Item.encodeAll_singleton, List.length_append]
      show 1 + _ ≤ _
      omega
  have hsize := Item.length_encode_nat64 index.size
  have hcount := Item.length_encode_nat64 index.nodes.length
  have hbytes : (Item.bytes index.nodes).encode = index.nodes := rfl
  rw [Transducer.save, Transducer.saveItems_eq, Item.encodeAll_append, Item.encodeAll_append,
    Item.encodeAll_append, Item.encodeAll_singleton, Item.encodeAll_cons, Item.encodeAll_singleton,
    hbytes, indexRoom]
  simp only [List.length_append]
  omega

/-! ## Stored fields -/

/-- A field that was finished: what was written to it, and as what it is stored. -/
structure StoredField where
  info : FieldInfo
  terms : Terms
  docs : DocList
  /-- Where its index starts. -/
  indexStart : Nat
  /-- Its index and its runs, if it has terms. -/
  tree : Option (Transducer × List Run)

namespace StoredField

def hasFreqs (s : StoredField) : Bool := s.info.options.hasFreqs

/-- Its runs, which are none if it has no terms. -/
def runs (s : StoredField) : List Run := (s.tree.map (·.2)).getD []

/-- What it has in the stream of indexes. -/
def indexBytes (s : StoredField) : Bytes :=
  match s.tree with
  | none => []
  | some (t, _) => t.save

/-- What the directory says of it. -/
def summary (s : StoredField) : FieldSummary :=
  match s.tree with
  | none => .empty s.info.number s.hasFreqs (UInt64.ofNat s.indexStart)
  | some (t, _) =>
    { number := s.info.number, terms := UInt64.ofNat s.terms.length
      rootCode := t.emptyOutput.getD []
      sumTotalFreq := if s.hasFreqs then some (UInt64.ofNat s.terms.totalFreqs) else none
      sumDocFreq := UInt64.ofNat s.terms.docFreqs, docCount := UInt32.ofNat s.docs.distinct
      minTerm := (s.terms.head?.map (·.1)).getD []
      maxTerm := (s.terms.getLast?.map (·.1)).getD []
      indexStart := UInt64.ofNat s.indexStart }

theorem summary_indexStart (s : StoredField) :
    s.summary.indexStart = UInt64.ofNat s.indexStart := by
  rw [summary]
  cases s.tree <;> rfl

theorem summary_number (s : StoredField) : s.summary.number = s.info.number := by
  rw [summary]
  cases s.tree <;> rfl

/-- The root code is what the index puts out for no byte. -/
theorem emptyOutput_eq {sizes : BlockSizes} {stored : Run → Prop} {s : StoredField}
    {t : Transducer} {runs : List Run} (htree : s.tree = some (t, runs))
    (h : Rooted sizes stored t s.terms runs) : t.emptyOutput = some s.summary.rootCode := by
  obtain ⟨r, -, -, houtput⟩ := h.emptyOutput_eq
  simp only [summary, htree, houtput, Option.getD_some]

/-- The field is in these streams. -/
structure In (sizes : BlockSizes) (stream index : Bytes) (s : StoredField) : Prop where
  empty : s.tree = none → s.terms = []
  rooted : ∀ t runs, s.tree = some (t, runs) →
    Rooted sizes (InStream s.hasFreqs stream) t s.terms runs ∧ (offsets runs).Nodup
  count : s.terms.length < 2 ^ 64
  placed : ∃ before after, index = before ++ (s.indexBytes ++ after) ∧
    before.length = s.indexStart

/-- A field stays in streams to which something is added. -/
theorem In.mono {sizes : BlockSizes} {stream index : Bytes} {s : StoredField}
    (h : s.In sizes stream index) (moreStream moreIndex : Bytes) :
    s.In sizes (stream ++ moreStream) (index ++ moreIndex) := by
  refine ⟨h.empty, fun t runs ht => ?_, h.count, ?_⟩
  · obtain ⟨hrooted, hoffsets⟩ := h.rooted t runs ht
    exact ⟨hrooted.mono fun r _ hr => hr.mono moreStream, hoffsets⟩
  · obtain ⟨before, after, rfl, hbefore⟩ := h.placed
    exact ⟨before, after ++ moreIndex, by simp only [List.append_assoc], hbefore⟩

/-- The field is what was written with a field writer: its runs are all that was emitted for it, and
its index went after what was in the stream of indexes. -/
structure Written (sizes : BlockSizes) (f : FieldWriter) (terms : Terms) (stream index : Bytes)
    (trace : List Run) (out : Output Memory) (s : StoredField) : Prop where
  info : s.info = f.info
  terms : s.terms = terms
  docs : s.docs = f.docs
  indexStart : s.indexStart = index.length
  holds : out.Holds (index ++ s.indexBytes)
  inside : s.In sizes stream (index ++ s.indexBytes)
  runs : ∀ t runs, s.tree = some (t, runs) → runs.Perm trace
  bare : s.tree = none → trace = []
  narrow : s.indexBytes.length ≤ indexRoom s.terms

/-- Its runs are all that was emitted for it. -/
theorem Written.perm {sizes : BlockSizes} {f : FieldWriter} {terms : Terms} {stream index : Bytes}
    {trace : List Run} {out : Output Memory} {s : StoredField}
    (h : s.Written sizes f terms stream index trace out) : s.runs.Perm trace := by
  rw [StoredField.runs]
  cases htree : s.tree with
  | none => rw [h.bare htree]; exact .refl []
  | some tree => exact h.runs tree.1 tree.2 htree

end StoredField

namespace Writer

variable {w : Writer Memory} {terms index directory : Bytes}

/-- What a call leaves, whether it fails or not. -/
def after {σ α : Type} (c : Call σ α) (w : Writer σ) : Writer σ :=
  match c w with
  | .ok _ w' => w'
  | .error _ w' => w'

/-- After a call that succeeds comes its writer. -/
theorem after_ok {α : Type} {c : Call Memory α} {a : α} {w' : Writer Memory}
    (h : c w = .ok a w') : after c w = w' := by
  rw [after, h]

theorem after_error {α : Type} {c : Call Memory α} {e : Error} {w' : Writer Memory}
    (h : c w = .error e w') : after c w = w' := by
  rw [after, h]

/-- Items are added to the index of a writer over memory. -/
theorem onIndex_items (hw : w.Holds terms index directory) (items : List Item) :
    ∃ index', onIndex (Output.items items) w = .ok () { w with index := index' } ∧
      index'.Holds (index ++ Item.encodeAll items) := by
  obtain ⟨index', hitems, hholds⟩ := Output.items_spec hw.index items
  exact ⟨index', by rw [onIndex, hitems], hholds⟩

end Writer

namespace FieldWriter

variable {sizes : BlockSizes} {f : FieldWriter} {w : Writer Memory} {stream index directory : Bytes}
  {terms : Terms} {trace : List Run}

/-- The terms of a field that are taken increase. -/
theorem Inv.increasing (h : f.Inv sizes stream terms trace) (hroom : Room terms) :
    terms.Pairwise fun s t => s.1 < t.1 := by
  obtain ⟨runs, -, hstands⟩ := h.frontier.stands hroom
  exact hstands.increasing h.frontier.ordered.keys h.frontier.ordered.apart

/-- Nothing was written of a field without terms. -/
theorem Inv.trace_eq_nil (h : f.Inv sizes stream [] trace) (hroom : Room []) : trace = [] := by
  obtain ⟨runs, hperm, hstands⟩ := h.frontier.stands hroom
  rw [h.frontier.pending.mp rfl] at hstands
  cases hstands
  exact hperm.symm.eq_nil

/-- A field counts no terms just if it has none, as their number fits the count. -/
theorem Inv.terms_eq_zero_iff (h : f.Inv sizes stream terms trace) (hroom : Room terms) :
    f.terms = 0 ↔ terms = [] := by
  have hlt := hroom.length_lt (h.increasing hroom)
  rw [h.count, ← UInt64.toNat_inj, UInt64.toNat_ofNat_of_lt' hlt]
  exact List.length_eq_zero_iff

/-- The summary of a field that has terms. -/
def closed (f : FieldWriter) (rootCode : Bytes) (indexStart : Nat) : FieldSummary :=
  { number := f.info.number, terms := f.terms, rootCode
    sumTotalFreq := if f.info.options.hasFreqs then some f.sumTotalFreq else none
    sumDocFreq := f.sumDocFreq, docCount := UInt32.ofNat f.docs.distinct
    minTerm := f.minTerm.getD [], maxTerm := f.frontier.last
    indexStart := UInt64.ofNat indexStart }

/-- The summary of a field that is closed is that of the stored field. -/
theorem Inv.closed_eq (h : f.Inv sizes stream terms trace) (indexStart : Nat) (runs : List Run)
    {t : Transducer} {rootCode : Bytes} (hroot : t.emptyOutput = some rootCode) :
    f.closed rootCode indexStart
      = StoredField.summary ⟨f.info, terms, f.docs, indexStart, some (t, runs)⟩ := by
  simp only [StoredField.summary, hroot]
  rw [closed, h.count, h.sumDocFreq, h.sumTotalFreq, h.minTerm, h.last]
  rfl

/-- A field is not completed when its pending terms are not written. -/
theorem complete_failed (hterms : f.terms ≠ 0) {e : Error} {w' : Writer Memory}
    (hemit : Writer.emit (f.frontier.close w.sizes f.info.options.hasFreqs) w = .error e w') :
    f.complete w = .error e w' := by
  rw [complete]
  simp only
  rw [bind_ok (Writer.get_ok w), if_neg hterms, bind_error hemit]

/-- A field is not completed without a block for the empty prefix. -/
theorem complete_rootless (hterms : f.terms ≠ 0) {root : SubBlock} {w' : Writer Memory}
    (hemit : Writer.emit (f.frontier.close w.sizes f.info.options.hasFreqs) w = .ok root w')
    (hempty : root.index.emptyOutput = none) :
    f.complete w = .error (.transducer .noRootOutput) w' := by
  rw [complete]
  simp only
  rw [bind_ok (Writer.get_ok w), if_neg hterms, bind_ok hemit, hempty]
  rfl

/-- A field is completed when its index is written. -/
theorem complete_rooted (hterms : f.terms ≠ 0) {root : SubBlock}
    {w' w'' : Writer Memory} {rootCode : Bytes}
    (hemit : Writer.emit (f.frontier.close w.sizes f.info.options.hasFreqs) w = .ok root w')
    (hempty : root.index.emptyOutput = some rootCode)
    (hindex : Writer.onIndex (Output.items root.index.saveItems) w' = .ok () w'') :
    f.complete w = .ok (f.closed rootCode w.index.position) w'' := by
  rw [complete]
  simp only
  rw [bind_ok (Writer.get_ok w), if_neg hterms, bind_ok hemit, hempty]
  simp only
  rw [bind_ok hindex]
  rfl

/-- A field without terms is completed without blocks or index. -/
theorem complete_empty (hzero : f.terms = 0) :
    f.complete w = .ok (.empty f.info.number f.info.options.hasFreqs
      (UInt64.ofNat w.index.position)) w := by
  rw [complete]
  simp only
  rw [bind_ok (Writer.get_ok w), if_pos hzero]
  rfl

/-- What is stored of a field without terms. -/
theorem written_empty (hholds : w.index.Holds index) :
    StoredField.Written sizes f [] stream index [] w.index
      ⟨f.info, [], f.docs, index.length, none⟩ := by
  refine ⟨rfl, rfl, rfl, rfl, ?_, ⟨fun _ => rfl, by simp, by simp, index, [], ?_, rfl⟩, by simp,
    fun _ => rfl, Nat.zero_le _⟩
  · show w.index.Holds (index ++ [])
    rwa [List.append_nil]
  · rw [StoredField.indexBytes]
    simp

/-- What is stored of a field with terms. -/
theorem written_rooted {t : Transducer} {runs : List Run} {out : Output Memory}
    (hholds : out.Holds (index ++ t.save)) (hcount : terms.length < 2 ^ 64)
    (hrooted : Rooted sizes (InStream f.info.options.hasFreqs stream) t terms runs)
    (hnodes : t.nodes.length ≤ Transducer.arcRoom locationRoom * termBytes terms)
    (hperm : runs.Perm trace) (hplaced : Placed trace 0 stream.length) :
    StoredField.Written sizes f terms stream index trace out
      ⟨f.info, terms, f.docs, index.length, some (t, runs)⟩ := by
  have htree : ∀ t' runs', some (t, runs) = some (t', runs') → t = t' ∧ runs = runs' := by simp
  refine ⟨rfl, rfl, rfl, rfl, hholds, ⟨by simp, fun t' runs' heq => ?_, hcount, index, [],
    by rw [List.append_nil], rfl⟩, fun t' runs' heq => ?_, by simp, hrooted.length_save_le hnodes⟩
  · obtain ⟨rfl, rfl⟩ := htree t' runs' heq
    exact ⟨hrooted, (offsets_perm hperm).nodup_iff.mpr hplaced.nodup⟩
  · obtain ⟨rfl, rfl⟩ := htree t' runs' heq
    exact hperm

/-- **A field is completed** as what was written to it. Whatever comes of it, the stream of blocks
has whole runs only. -/
theorem complete_spec (hsizes : sizes.Valid) (h : f.Inv sizes stream terms trace)
    (hw : w.Holds stream index directory) (hsame : w.sizes = sizes) :
    ∃ w' items new, Writer.Wrote sizes f.info.options.hasFreqs w w' items new ∧
      (Writer.after f.complete w).terms = w'.terms ∧
      (Room terms → ∃ (s : StoredField) (out : Output Memory),
        s.Written sizes f terms (stream ++ Item.encodeAll items) index (trace ++ new) out ∧
        f.complete w = .ok s.summary { w' with index := out }) := by
  by_cases hzero : f.terms = 0
  · have hcomplete := complete_empty (w := w) hzero
    refine ⟨w, [], [], .refl w, by rw [Writer.after_ok hcomplete], fun hroom => ?_⟩
    obtain rfl : terms = [] := (h.terms_eq_zero_iff hroom).mp hzero
    obtain rfl := h.trace_eq_nil hroom
    refine ⟨_, w.index, written_empty hw.index, ?_⟩
    rw [hcomplete, hw.index.position]
    rfl
  · have hne : terms ≠ [] := fun hnil => hzero (by rw [h.count, hnil]; rfl)
    have hleads := Frontier.close_spec hsizes
      (show (⟨w.terms.position, w.codec, []⟩ : Emission).position = stream.length from
        hw.terms.position) h.frontier hne
    rcases Writer.emit_spec hw hleads with ⟨root, w', items, new, hemit, hwrote, hroot⟩ |
      ⟨hroom, e, hemit⟩
    · rw [← hsame] at hemit
      refine ⟨w', items, new, hwrote, ?_⟩
      cases hempty : root.index.emptyOutput with
      | none =>
        -- a root without output has no run, which can only be for want of room
        refine ⟨by rw [Writer.after_error (complete_rootless hzero hemit hempty)], fun hroom => ?_⟩
        obtain ⟨runs, -, hrooted, -⟩ := hroot hroom
        obtain ⟨r, -, -, houtput⟩ := hrooted.emptyOutput_eq
        rw [houtput] at hempty
        cases hempty
      | some rootCode =>
        obtain ⟨index', hindex, hholds⟩ :=
          Writer.onIndex_items (hwrote.holds hw) root.index.saveItems
        have hcomplete := complete_rooted hzero hemit hempty hindex
        refine ⟨by rw [Writer.after_ok hcomplete], fun hroom => ?_⟩
        obtain ⟨runs, hperm, hrooted, hnodes⟩ := hroot hroom
        refine ⟨_, index', written_rooted hholds (hroom.length_lt (h.increasing hroom)) hrooted
          hnodes hperm (h.placed.append (hwrote.placed hw) (Nat.zero_le _) (by simp)), ?_⟩
        rw [hcomplete, hw.index.position, h.closed_eq index.length runs hempty]
    · rw [← hsame] at hemit
      refine ⟨w, [], [], .refl w, ?_, fun h => absurd h hroom⟩
      rw [Writer.after_error (complete_failed hzero hemit)]

/-- **A field is finished**: it is completed, and the directory will list it. -/
theorem finish_spec (hsizes : sizes.Valid) (h : f.Inv sizes stream terms trace)
    (hw : w.Holds stream index directory) (hsame : w.sizes = sizes) :
    ∃ w' items new, Writer.Wrote sizes f.info.options.hasFreqs w w' items new ∧
      (Writer.after f.finish w).terms = w'.terms ∧
      (Room terms → ∃ (s : StoredField) (out : Output Memory),
        s.Written sizes f terms (stream ++ Item.encodeAll items) index (trace ++ new) out ∧
        f.finish w = .ok s.summary { w' with
          index := out, docs := w'.docs ++ f.docs, summaries := w'.summaries ++ [s.summary] }) := by
  obtain ⟨w', items, new, hwrote, hafter, hstored⟩ := complete_spec hsizes h hw hsame
  have hfinish : f.finish w = (Writer.orFail f.complete >>= fun summary => do
      modify fun w => { w with docs := w.docs ++ f.docs, summaries := w.summaries ++ [summary] }
      return summary) w := by
    rw [finish, bind_ok (Writer.ensureSound_ok hw.sound)]
  refine ⟨w', items, new, hwrote, ?_, fun hroom => ?_⟩
  · cases hcomplete : f.complete w with
    | ok summary w₁ =>
      rw [bind_ok (Writer.orFail_ok hcomplete)] at hfinish
      rw [Writer.after_ok hcomplete] at hafter
      rw [Writer.after_ok hfinish]
      exact hafter
    | error e w₁ =>
      rw [bind_error (Writer.orFail_error hcomplete)] at hfinish
      rw [Writer.after_error hcomplete] at hafter
      rw [Writer.after_error hfinish]
      exact hafter
  · obtain ⟨s, out, hwritten, hcomplete⟩ := hstored hroom
    refine ⟨s, out, hwritten, ?_⟩
    rw [hfinish, bind_ok (Writer.orFail_ok hcomplete)]
    rfl

end FieldWriter

/-! ## Scripts for a segment -/

/-- What is done with a field, which is finished or dropped in the end. -/
structure FieldScript where
  info : FieldInfo
  steps : List FieldStep
  finished : Bool := true

namespace FieldScript

def hasFreqs (s : FieldScript) : Bool := s.info.options.hasFreqs

/-- The terms that are written. -/
def terms (s : FieldScript) : Terms := FieldStep.terms s.steps

/-- The terms as the field keeps them. -/
def kept (s : FieldScript) : Terms := s.terms.kept s.hasFreqs

def run {σ : Type} [Sink σ] (s : FieldScript) : Writer.Call σ Unit := do
  let f ← Writer.openField s.info
  let f ← f.run s.steps
  if s.finished then
    let _ ← f.finish

/-- The terms are in order, their states are accepted, and their index has room. -/
structure Acceptable (s : FieldScript) : Prop where
  increasing : s.terms.keys.Pairwise (· < ·)
  accepted : FieldWriter.Accepted s.hasFreqs s.terms
  room : Room s.terms

/-- The stored field is the one that was written. -/
structure StoredAs (s : FieldScript) (stored : StoredField) : Prop where
  info : stored.info = s.info
  terms : stored.terms = s.kept
  docs : stored.docs = FieldStep.docs s.steps

end FieldScript

/-- Leaving frequencies out leaves the keys, so their bytes. -/
theorem termBytes_kept (terms : Terms) (hasFreqs : Bool) :
    termBytes (terms.kept hasFreqs) = termBytes terms := by
  rw [termBytes, Terms.kept, List.map_map]
  rfl

theorem indexRoom_kept (terms : Terms) (hasFreqs : Bool) :
    indexRoom (terms.kept hasFreqs) = indexRoom terms := by
  rw [indexRoom, indexRoom, termBytes_kept]

theorem Terms.keys_kept (terms : Terms) (hasFreqs : Bool) :
    Terms.keys (terms.kept hasFreqs) = terms.keys := by
  rw [keys, kept, List.map_map]
  rfl

theorem Terms.docFreqs_kept (terms : Terms) (hasFreqs : Bool) :
    Terms.docFreqs (terms.kept hasFreqs) = terms.docFreqs := by
  rw [docFreqs, docFreqs, kept, List.map_map]
  refine congrArg List.sum (List.map_congr_left fun t _ => ?_)
  cases hasFreqs <;> rfl

/-- Terms leave room also without their frequencies. -/
theorem Room.kept {terms : Terms} (h : Room terms) (hasFreqs : Bool) :
    Room (terms.kept hasFreqs) := by
  rwa [Room, termBytes_kept]

/-- What these scripts add to the stream of blocks, one after the other: the runs that were emitted
for each, which are those of its stored field if it is finished. -/
inductive Adds (sizes : BlockSizes) : Bytes → List FieldScript → List StoredField → Bytes → Prop
  | nil (stream : Bytes) : Adds sizes stream [] [] []
  | finished {stream more : Bytes} {script : FieldScript} {scripts : List FieldScript}
      {field : StoredField} {stored : List StoredField} {items : List Item} {runs : List Run}
      {codec : LongsCodec} (finished : script.finished = true) (same : script.StoredAs field)
      (perm : field.runs.Perm runs)
      (emits : Emits sizes script.hasFreqs ⟨stream.length, {}, []⟩ runs
        ⟨stream.length + (Item.encodeAll items).length, codec, items⟩)
      (others : Adds sizes (stream ++ Item.encodeAll items) scripts stored more) :
      Adds sizes stream (script :: scripts) (field :: stored) (Item.encodeAll items ++ more)
  | dropped {stream more : Bytes} {script : FieldScript} {scripts : List FieldScript}
      {stored : List StoredField} {items : List Item} {runs : List Run} {codec : LongsCodec}
      (dropped : script.finished = false)
      (emits : Emits sizes script.hasFreqs ⟨stream.length, {}, []⟩ runs
        ⟨stream.length + (Item.encodeAll items).length, codec, items⟩)
      (others : Adds sizes (stream ++ Item.encodeAll items) scripts stored more) :
      Adds sizes stream (script :: scripts) stored (Item.encodeAll items ++ more)

namespace Adds

variable {sizes : BlockSizes} {stream more more' : Bytes} {scripts scripts' : List FieldScript}
  {stored stored' : List StoredField}

/-- Scripts run one after the other add their fields one after the other. -/
theorem append (h : Adds sizes stream scripts stored more)
    (h' : Adds sizes (stream ++ more) scripts' stored' more') :
    Adds sizes stream (scripts ++ scripts') (stored ++ stored') (more ++ more') := by
  induction h with
  | nil => rwa [List.append_nil] at h'
  | finished finished same perm emits _ ih =>
    rw [← List.append_assoc] at h'
    rw [List.append_assoc]
    exact .finished finished same perm emits (ih h')
  | dropped dropped emits _ ih =>
    rw [← List.append_assoc] at h'
    rw [List.append_assoc]
    exact .dropped dropped emits (ih h')

/-- What is stored are the fields that are finished. -/
theorem storedAs (h : Adds sizes stream scripts stored more) :
    List.Forall₂ FieldScript.StoredAs (scripts.filter (·.finished)) stored := by
  induction h with
  | nil => exact .nil
  | finished finished same _ _ _ ih =>
    rw [List.filter_cons_of_pos finished]
    exact .cons same ih
  | dropped dropped _ _ ih =>
    rwa [List.filter_cons_of_neg (by simp [dropped])]

end Adds

namespace Writer

/-- Does what the scripts say, field after field. -/
def runAll {σ : Type} [Sink σ] : List FieldScript → Call σ Unit
  | [] => pure ()
  | s :: rest => do s.run; runAll rest

/-- The writer after some fields were opened, of which these are stored. -/
structure Has (w : Writer Memory) (sizes : BlockSizes) (infos : List FieldInfo)
    (fields : List StoredField) (stream index directory : Bytes) : Prop where
  holds : w.Holds stream index directory
  sizes_eq : w.sizes = sizes
  infos_eq : w.infos = infos
  summaries_eq : w.summaries = fields.map StoredField.summary
  inside : ∀ s ∈ fields, s.In sizes stream index
  before : ∀ s ∈ fields, s.indexStart ≤ index.length
  starts : fields.Pairwise (·.indexStart ≤ ·.indexStart)

variable {sizes : BlockSizes} {w : Writer Memory} {infos : List FieldInfo}
  {fields : List StoredField} {stream index directory : Bytes}

/-- A field is opened if its number is above all before. -/
theorem openField_ok (h : w.Has sizes infos fields stream index directory) {info : FieldInfo}
    (hnumber : ∀ i ∈ infos, i.number < info.number) :
    openField info w = .ok { info } { w with infos := w.infos ++ [info], codec := {} } := by
  have hnone : (w.infos.getLast?.map (·.number)).filter (info.number ≤ ·) = none := by
    rw [h.infos_eq]
    cases hlast : infos.getLast? with
    | none => rfl
    | some i =>
      have hlt := hnumber i (List.mem_of_getLast? hlast)
      rw [Option.map_some, Option.filter_some, if_neg (by simpa using hlt)]
  rw [openField, bind_ok (ensureSound_ok h.holds.sound), bind_ok (get_ok w), h.holds.unclosed]
  simp only [hnone]
  rfl

/-- The stream of blocks grows while a field is open. -/
theorem Has.open_field (h : w.Has sizes infos fields stream index directory) {w' : Writer Memory}
    {info : FieldInfo} {hasFreqs : Bool} {items : List Item} {new : List Run}
    (hwrote :
      Wrote sizes hasFreqs { w with infos := w.infos ++ [info], codec := {} } w' items new) :
    w'.Has sizes (infos ++ [info]) fields (stream ++ Item.encodeAll items) index directory := by
  have hw₀ : Holds { w with infos := w.infos ++ [info], codec := {} } stream index directory :=
    ⟨h.holds.terms, h.holds.index, h.holds.directory, h.holds.sound, h.holds.unclosed⟩
  refine ⟨hwrote.holds hw₀, hwrote.sizes_eq.trans h.sizes_eq, ?_, ?_, fun s hs => ?_, h.before,
    h.starts⟩
  · rw [hwrote.same, ← h.infos_eq]
  · rw [hwrote.same, ← h.summaries_eq]
  · have hin := (h.inside s hs).mono (Item.encodeAll items) []
    rwa [List.append_nil] at hin

/-- A stored field is added after all others. -/
theorem Has.store (h : w.Has sizes infos fields stream index directory) {f : FieldWriter}
    {terms : Terms} {trace : List Run} {hasFreqs : Bool} {items : List Item} {new : List Run}
    {s : StoredField} {w' : Writer Memory} {out : Output Memory}
    (hwrote : Wrote sizes hasFreqs w w' items new)
    (hwritten : s.Written sizes f terms (stream ++ Item.encodeAll items) index trace out) :
    Has
      { w' with index := out, docs := w'.docs ++ f.docs, summaries := w'.summaries ++ [s.summary] }
      sizes infos (fields ++ [s]) (stream ++ Item.encodeAll items) (index ++ s.indexBytes)
      directory := by
  have hw' := hwrote.holds h.holds
  refine ⟨⟨hw'.terms, hwritten.holds, hw'.directory, hw'.sound, hw'.unclosed⟩, ?_, ?_, ?_,
    fun x hx => ?_, fun x hx => ?_, ?_⟩
  · exact hwrote.sizes_eq.trans h.sizes_eq
  · show w'.infos = _
    rw [hwrote.same, ← h.infos_eq]
  · show w'.summaries ++ _ = _
    rw [hwrote.same, List.map_append, ← h.summaries_eq]
    rfl
  · rcases List.mem_append.mp hx with hx | hx
    · exact (h.inside x hx).mono _ _
    · rw [List.mem_singleton.mp hx]
      exact hwritten.inside
  · rw [List.length_append]
    rcases List.mem_append.mp hx with hx | hx
    · have := h.before x hx
      omega
    · rw [List.mem_singleton.mp hx, hwritten.indexStart]
      omega
  · refine h.starts.concat fun x hx => ?_
    rw [hwritten.indexStart]
    exact h.before x hx

/-- **One field is written**, and stored if it is finished. -/
theorem script_spec (hsizes : sizes.Valid) (h : w.Has sizes infos fields stream index directory)
    {script : FieldScript} (hscript : script.Acceptable)
    (hnumber : ∀ i ∈ infos, i.number < script.info.number) :
    ∃ w' moreStream moreIndex more, script.run w = .ok () w' ∧
      w'.Has sizes (infos ++ [script.info]) (fields ++ more) (stream ++ moreStream)
        (index ++ moreIndex) directory ∧ Adds sizes stream [script] more moreStream ∧
      moreIndex.length ≤ indexRoom script.terms := by
  have hopen := openField_ok h hnumber
  have hw₀ :
      Holds { w with infos := w.infos ++ [script.info], codec := {} } stream index directory :=
    ⟨h.holds.terms, h.holds.index, h.holds.directory, h.holds.sound, h.holds.unclosed⟩
  obtain ⟨w₁, items, new, hwrote, houtcome⟩ := FieldWriter.run_spec hsizes script.steps
    (FieldWriter.inv_new hsizes script.info stream) hw₀ h.sizes_eq hscript.increasing
  have hroom : Room script.kept := hscript.room.kept script.hasFreqs
  rcases houtcome with ⟨f, hrun, hinfo, hdocs, hinv⟩ | ⟨-, -, hnot⟩
  · have hhas := h.open_field hwrote
    cases hfinished : script.finished with
    | false =>
      -- an abandoned field leaves its blocks in the stream, and nothing else
      refine ⟨w₁, Item.encodeAll items ++ [], [], [], ?_, ?_,
        .dropped hfinished (hwrote.emits hw₀) (.nil _), Nat.zero_le _⟩
      · rw [FieldScript.run, bind_ok hopen, bind_ok hrun, hfinished]
        rfl
      · rwa [List.append_nil, List.append_nil, List.append_nil]
    | true =>
      obtain ⟨w₂, items', new', hwrote', -, hstored⟩ := FieldWriter.finish_spec hsizes hinv
        hhas.holds hhas.sizes_eq
      obtain ⟨s, out, hwritten, hfinish⟩ := hstored hroom
      have hhas' := hhas.store hwrote' hwritten
      rw [List.append_assoc, ← Item.encodeAll_append] at hhas'
      have hall : script.run w = (f.finish >>= fun _ => pure ()) w₁ := by
        rw [FieldScript.run, bind_ok hopen, bind_ok hrun, hfinished]
        rfl
      rw [bind_ok hfinish] at hall
      have hsame : script.StoredAs s :=
        ⟨hwritten.info.trans hinfo, hwritten.terms, hwritten.docs.trans hdocs⟩
      rw [hinfo] at hwrote'
      have hemits := (hwrote.trans hwrote').emits hw₀
      refine ⟨_, Item.encodeAll (items ++ items') ++ [], s.indexBytes, [s], hall, ?_,
        .finished hfinished hsame hwritten.perm hemits (.nil _), ?_⟩
      · rwa [List.append_nil]
      · have hnarrow := hwritten.narrow
        rw [hwritten.terms] at hnarrow
        rwa [← indexRoom_kept script.terms script.hasFreqs]
  · -- a script fails only for want of room or a term that is refused
    exact absurd ⟨hroom, hscript.accepted⟩ hnot

/-- **Any number of fields are written**, and those that are finished are stored, in order. -/
theorem runAll_spec (hsizes : sizes.Valid) (scripts : List FieldScript) :
    ∀ {w : Writer Memory} {infos : List FieldInfo} {fields : List StoredField}
      {stream index : Bytes},
      w.Has sizes infos fields stream index directory → (∀ s ∈ scripts, s.Acceptable) →
      (infos ++ scripts.map (·.info)).Pairwise (·.number < ·.number) →
      ∃ w' moreStream moreIndex more, runAll scripts w = .ok () w' ∧
        w'.Has sizes (infos ++ scripts.map (·.info)) (fields ++ more) (stream ++ moreStream)
          (index ++ moreIndex) directory ∧ Adds sizes stream scripts more moreStream ∧
        moreIndex.length ≤ (scripts.map fun s => indexRoom s.terms).sum := by
  induction scripts with
  | nil =>
    intro w infos fields stream index h _ _
    refine ⟨w, [], [], [], rfl, ?_, .nil stream, Nat.le_refl _⟩
    simpa using h
  | cons script rest ih =>
    intro w infos fields stream index h hscripts hnumbers
    rw [List.map_cons, List.append_cons] at hnumbers
    have hnumber : ∀ i ∈ infos, i.number < script.info.number := fun i hi =>
      (List.pairwise_append.mp (List.pairwise_append.mp hnumbers).1).2.2 i hi _ (by simp)
    obtain ⟨w₁, stream₁, index₁, more₁, hscript, hhas, hadds, hnarrow⟩ :=
      script_spec hsizes h (hscripts script (List.mem_cons_self ..)) hnumber
    obtain ⟨w₂, stream₂, index₂, more₂, hrest, hhas', hadds', hnarrow'⟩ :=
      ih hhas (fun s hs => hscripts s (List.mem_cons_of_mem _ hs)) hnumbers
    refine ⟨w₂, stream₁ ++ stream₂, index₁ ++ index₂, more₁ ++ more₂, ?_, ?_, hadds.append hadds',
      ?_⟩
    · rw [runAll, bind_ok hscript, hrest]
    · rw [List.map_cons, List.append_cons, ← List.append_assoc, ← List.append_assoc,
        ← List.append_assoc]
      exact hhas'
    · rw [List.length_append, List.map_cons, List.sum_cons]
      exact Nat.add_le_add hnarrow hnarrow'

end Writer

end Lexicon

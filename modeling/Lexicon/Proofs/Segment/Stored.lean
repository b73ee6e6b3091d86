import Lexicon.Build
import Lexicon.Proofs.Files
import Lexicon.Proofs.Segment.RoundTrip
import Mathlib.Data.List.Induction

/-!
# A segment in files

The files of a segment are named after it and tell their extensions, so that no two of them are at
one spot, wherever the directory is (`Houses.apart`). What is in them is therefore what was written
last to each (`Houses.node?_fill`).

> **`create_spec`**, **`writeDictionary_spec`** — where all files of a segment can be written, it is
> started and ended there;
> **`openIn_eq`** — and it is opened from the bytes that were written.
-/

namespace Lexicon

/-! ## Spots of the files -/

namespace Segment

/-- The extensions of all files of a segment. -/
def extensions : List String :=
  [termsExtension, indexExtension, metaExtension, descriptorExtension, postingsExtension]

/-- The path of a file ends in a dot and the extension. -/
theorem exists_path_text (s : Segment) (dir : Path) (e : String) :
    ∃ front, (s.path dir e).text.toList = front ++ '.' :: e.toList := by
  have hname : ∃ front, (s.fileName e).toList = front ++ '.' :: e.toList := by
    unfold fileName
    split
    · exact ⟨s.name.toList, by simp⟩
    · exact ⟨s.name.toList ++ '_' :: s.suffix.toList, by simp⟩
  obtain ⟨front, hfront⟩ := hname
  unfold path Path.join
  split
  · exact ⟨front, hfront⟩
  split
  · exact ⟨dir.text.toList ++ front, by rw [String.toList_append, hfront, List.append_assoc]⟩
  · exact ⟨dir.text.toList ++ '/' :: front, by simp [hfront]⟩

/-- No extension has a slash, and none ends as another one with its dot. -/
theorem extensions_apart : (∀ e ∈ extensions, '/' ∉ '.' :: e.toList) ∧
    ∀ e ∈ extensions, ∀ e' ∈ extensions, '.' :: e.toList <:+ '.' :: e'.toList → e = e' := by
  decide

end Segment

namespace Files

variable {fs fs' : Files} {s : Segment} {dir : Path} {spots : String → Spot} {e e' : String}

/-- The files of the segment have their places in the directory. -/
def Houses (fs : Files) (s : Segment) (dir : Path) (spots : String → Spot) : Prop :=
  ∀ e ∈ Segment.extensions, fs.At (s.path dir e) (spots e)

/-- The directory can be made, and every file of the segment can be written there. -/
def Willing (fs : Files) (s : Segment) (dir : Path) : Prop :=
  ∃ made, makeDirs dir fs = .ok () made ∧
    ∀ e ∈ Segment.extensions, ∃ after, write (s.path dir e) [] made = .ok () after

instance (r : EStateM.Result MediumFault Files Unit) : Decidable (∃ after, r = .ok () after) :=
  match r with
  | .ok _ after => .isTrue ⟨after, rfl⟩
  | .error _ _ => .isFalse nofun

instance (fs : Files) (s : Segment) (dir : Path) : Decidable (fs.Willing s dir) :=
  match h : makeDirs dir fs with
  | .ok _ made =>
    decidable_of_iff
      (∀ e ∈ Segment.extensions, ∃ after, write (s.path dir e) [] made = .ok () after)
      ⟨fun hwrites => ⟨made, h, hwrites⟩, fun ⟨made', hmade, hwrites⟩ => by
        rw [h] at hmade
        cases hmade
        exact hwrites⟩
  | .error _ _ => .isFalse fun ⟨_, hmade, _⟩ => by
    rw [h] at hmade
    cases hmade

/-- Files that take those of a segment have places for them. -/
theorem Willing.houses (h : fs.Willing s dir) :
    ∃ made spots, makeDirs dir fs = .ok () made ∧ made.Houses s dir spots := by
  obtain ⟨made, hmade, hwrites⟩ := h
  have hspots : ∀ e, ∃ spot, e ∈ Segment.extensions → made.At (s.path dir e) spot := by
    intro e
    by_cases he : e ∈ Segment.extensions
    · obtain ⟨after, hwrite⟩ := hwrites e he
      obtain ⟨spot, hat, -⟩ := at_of_write hwrite
      exact ⟨spot, fun _ => hat⟩
    · exact ⟨[], fun hmem => absurd hmem he⟩
  choose spots hat using hspots
  exact ⟨made, spots, hmade, fun e he => hat e he⟩

/-- No two files of a segment are at one spot. -/
theorem Houses.apart (h : fs.Houses s dir spots) (he : e ∈ Segment.extensions)
    (he' : e' ∈ Segment.extensions) (hspot : spots e = spots e') : e = e' := by
  obtain ⟨hslash, hends⟩ := Segment.extensions_apart
  obtain ⟨front, hfront⟩ := s.exists_path_text dir e
  obtain ⟨front', hfront'⟩ := s.exists_path_text dir e'
  obtain ⟨name, hname, hending⟩ :=
    (h e he).exists_name hfront (hslash e he) nofun
  obtain ⟨name', hname', hending'⟩ :=
    (h e' he').exists_name hfront' (hslash e' he') nofun
  obtain rfl : name = name' := by
    rw [hspot, hname', Option.some_inj] at hname
    exact hname.symm
  rcases List.suffix_or_suffix_of_suffix hending hending' with hends' | hends'
  · exact hends e he e' he' hends'
  · exact (hends e' he' e he hends').symm

/-- The files once bytes were written at the spots of some extensions, one after the other. -/
def fill (fs : Files) (spots : String → Spot) (writes : List (String × Bytes)) : Files :=
  writes.foldl (fun fs w => fs.put (spots w.1) w.2) fs

/-- Files are filled one after the other. -/
theorem fill_append (fs : Files) (spots : String → Spot) (writes more : List (String × Bytes)) :
    fs.fill spots (writes ++ more) = (fs.fill spots writes).fill spots more :=
  List.foldl_append

/-- A file that is put leaves the spots where they are. -/
theorem Houses.put (h : fs.Houses s dir spots) (he : e ∈ Segment.extensions) (data : Bytes) :
    (fs.put (spots e) data).Houses s dir spots :=
  fun e' he' => (h e' he').put data (h e he).free

theorem Houses.fill (h : fs.Houses s dir spots) {writes : List (String × Bytes)}
    (hwrites : ∀ w ∈ writes, w.1 ∈ Segment.extensions) :
    (fs.fill spots writes).Houses s dir spots := by
  induction writes generalizing fs with
  | nil => exact h
  | cons w writes ih =>
    obtain ⟨hfirst, hrest⟩ := List.forall_mem_cons.mp hwrites
    exact ih (h.put hfirst w.2) hrest

/-- **In each file is what was written last to it.** -/
theorem Houses.node?_fill (h : fs.Houses s dir spots) {writes : List (String × Bytes)}
    (hwrites : ∀ w ∈ writes, w.1 ∈ Segment.extensions) (he : e ∈ Segment.extensions) {data : Bytes}
    (hlast : writes.reverse.lookup e = some data) :
    (fs.fill spots writes).node? (spots e) = some (.file data) := by
  induction writes using List.reverseRecOn with
  | nil => cases hlast
  | append_singleton writes w ih =>
    have hwrites' : ∀ x ∈ writes, x.1 ∈ Segment.extensions := fun x hx =>
      hwrites x (List.mem_append_left _ hx)
    have hw : w.1 ∈ Segment.extensions := hwrites w (List.mem_append_right _ (by simp))
    have hhouses := h.fill hwrites'
    rw [List.reverse_concat, List.lookup_cons] at hlast
    rw [fill_append]
    show ((fs.fill spots writes).put (spots w.1) w.2).node? (spots e) = _
    by_cases hsame : e = w.1
    · subst hsame
      rw [beq_self_eq_true, Option.some_inj] at hlast
      rw [node?_put_self _ (hhouses _ he).free, hlast]
    · rw [beq_false_of_ne hsame] at hlast
      rw [node?_put_of_ne _ fun hspot => hsame (hhouses.apart he hw hspot)]
      exact ih hwrites' hlast

/-- A file of the segment is written to its spot. -/
theorem Houses.write (h : fs.Houses s dir spots) (he : e ∈ Segment.extensions) (data : Bytes) :
    Files.write (s.path dir e) data fs = .ok () (fs.fill spots [(e, data)]) :=
  (h e he).write data

end Files

/-! ## The writer of a segment -/

/-- Both writers are open for the same segment, or both were ended. -/
structure Writer.Alike {σ : Type} (w w' : Writer σ) : Prop where
  segment : w'.segment = w.segment
  closed : w'.closed = w.closed

section

variable {σ : Type} [Sink σ] {w w' : Writer σ}

/-- The steps of a field leave the segment, and the writer open or closed. -/
theorem FieldWriter.run_alike (steps : List FieldStep) : ∀ {f f' : FieldWriter} {w w' : Writer σ},
    f.run steps w = .ok f' w' → w.Alike w' := by
  induction steps with
  | nil =>
    intro f f' w w' hrun
    cases hrun
    exact ⟨rfl, rfl⟩
  | cons step steps ih =>
    intro f f' w w' hrun
    cases step with
    | write term state =>
      obtain ⟨f₁, w₁, hwrite, hrest⟩ := exists_of_bind_ok hrun
      obtain ⟨-, _, _, _, -, rfl⟩ := FieldWriter.write_ok_cases hwrite
      obtain ⟨hsegment, hclosed⟩ := ih hrest
      exact ⟨hsegment, hclosed⟩
    | record docs => exact ih hrun

theorem FieldScript.run_alike {s : FieldScript} (hrun : s.run w = .ok () w') : w.Alike w' := by
  obtain ⟨f, w₁, hopen, hrun⟩ := exists_of_bind_ok hrun
  obtain ⟨-, -, rfl⟩ := Writer.openField_ok_cases hopen
  obtain ⟨f', w₂, hsteps, hrun⟩ := exists_of_bind_ok hrun
  obtain ⟨hsegment, hclosed⟩ := FieldWriter.run_alike s.steps hsteps
  split at hrun
  next =>
    obtain ⟨summary, w₃, hfinish, hdone⟩ := exists_of_bind_ok hrun
    obtain ⟨-, _, _, _, _, _, -, -, rfl⟩ := FieldWriter.finish_ok_cases hfinish
    cases hdone
    exact ⟨hsegment, hclosed⟩
  next =>
    cases hrun
    exact ⟨hsegment, hclosed⟩

theorem Writer.runAll_alike (scripts : List FieldScript) : ∀ {w w' : Writer σ},
    runAll scripts w = .ok () w' → w.Alike w' := by
  induction scripts with
  | nil =>
    intro w w' hrun
    cases hrun
    exact ⟨rfl, rfl⟩
  | cons s scripts ih =>
    intro w w' hrun
    obtain ⟨_, w₁, hfirst, hrest⟩ := exists_of_bind_ok hrun
    have h₁ := FieldScript.run_alike hfirst
    have h₂ := ih hrest
    exact ⟨h₂.segment.trans h₁.segment, h₂.closed.trans h₁.closed⟩

/-- A writer that starts has its segment and is not closed. -/
theorem Writer.start_ok {segment : Segment} {sizes : BlockSizes} {sinks : Streams σ}
    (h : start segment sizes sinks = (.ok (), w)) : w.segment = segment ∧ w.closed = false := by
  obtain ⟨-, _, _, _, -, -, -, rfl⟩ := exists_of_start h
  exact ⟨rfl, rfl⟩

/-- **The streams of a script come from a writer that was started, written to and ended.** -/
theorem SegmentScript.exists_of_streams {s : SegmentScript} {streams : Streams Bytes}
    (h : s.streams = .ok streams) : ∃ w₀ w₁ w₂ : Writer Memory,
      Writer.start s.segment s.sizes ⟨{}, {}, {}⟩ = (.ok (), w₀) ∧
      Writer.runAll s.fields w₀ = .ok () w₁ ∧ w₁.closed = false ∧ Writer.close w₁ = .ok () w₂ ∧
      w₂.segment = s.segment ∧
      streams = ⟨w₂.terms.sink.bytes, w₂.index.sink.bytes, w₂.directory.sink.bytes⟩ := by
  obtain ⟨w₁, hwritten, hstreams⟩ := of_bind_eq_ok h
  unfold written at hwritten
  split at hwritten
  next => cases hwritten
  next w₀ hstart =>
    obtain ⟨hsegment, hopen⟩ := Writer.start_ok hstart
    split at hwritten <;> cases hwritten
    next hrun =>
      obtain ⟨hsegment', hclosed'⟩ := Writer.runAll_alike s.fields hrun
      rw [Writer.intoStreams_eq] at hstreams
      split at hstreams
      next hinto =>
        split at hinto
        next => cases hinto
        next hclose =>
          cases hinto
          cases hstreams
          refine ⟨w₀, w₁, _, hstart, hrun, hclosed'.trans hopen, hclose, ?_, rfl⟩
          obtain ⟨-, -, -, ⟨-, rfl⟩ | ⟨_, _, _, -, -, -, rfl⟩⟩ := Writer.close_ok hclose
          · exact hsegment'.trans hsegment
          · exact hsegment'.trans hsegment
      next => cases hstreams

end

/-! ## A segment is written into its files -/

section

variable {fs fs' : Files} {s : Segment} {dir : Path} {spots : String → Spot}

/-- What is written to the files of the streams. -/
def Streams.writes (streams : Streams Bytes) : List (String × Bytes) :=
  [(Segment.termsExtension, streams.terms), (Segment.indexExtension, streams.index),
    (Segment.metaExtension, streams.directory)]

/-- The streams have extensions of their own. -/
theorem Streams.mem_extensions (streams : Streams Bytes) :
    ∀ w ∈ streams.writes, w.1 ∈ Segment.extensions := by
  simp [writes, Segment.extensions]

/-- The streams of a segment are written to their spots. -/
theorem Segment.writeStreams_spec (h : fs.Houses s dir spots) (streams : Streams Bytes) :
    s.writeStreams dir streams fs = .ok () (fs.fill spots streams.writes) := by
  obtain ⟨hterms, hindex, hdirectory⟩ : termsExtension ∈ extensions ∧ indexExtension ∈ extensions ∧
      metaExtension ∈ extensions := by decide
  have h₁ : (fs.fill spots [(termsExtension, streams.terms)]).Houses s dir spots :=
    h.put hterms streams.terms
  have h₂ : ((fs.fill spots [(termsExtension, streams.terms)]).fill spots
      [(indexExtension, streams.index)]).Houses s dir spots := h₁.put hindex streams.index
  have hall : s.writeStreams dir streams fs
      = (Files.write (s.path dir termsExtension) streams.terms >>= fun _ =>
        Files.write (s.path dir indexExtension) streams.index >>= fun _ =>
        Files.write (s.path dir metaExtension) streams.directory) fs := rfl
  rw [hall, bind_ok (h.write hterms _), bind_ok (h₁.write hindex _), h₂.write hdirectory]
  rfl

/-- What succeeds on files succeeds as a call. -/
theorem OnFiles.orError_ok {α : Type} {c : OnFiles α} {a : α} (h : c fs = .ok a fs') :
    c.orError fs = .ok a fs' := by
  rw [orError, h]

namespace Writer

variable {w w' : Writer Memory}

/-- **A segment is created** where its files can be written; they are empty at first. -/
theorem create_spec {sizes : BlockSizes} (hsizes : sizes.check = .ok ())
    (hmade : Files.makeDirs dir fs = .ok () fs) (h : fs.Houses s dir spots)
    (hstart : Writer.start s sizes ⟨{}, {}, {}⟩ = (.ok (), w)) :
    create dir s sizes fs = .ok w (fs.fill spots (Streams.writes ⟨[], [], []⟩)) := by
  have hwrites := OnFiles.orError_ok (Segment.writeStreams_spec h ⟨[], [], []⟩)
  rw [create, hsizes]
  simp only
  rw [bind_ok (OnFiles.orError_ok hmade), Segment.orDiscard, bind_ok hwrites, hstart]
  rfl

/-- What is written when a segment is ended. -/
def stored (w : Writer Memory) (createdAt : UInt64) : List (String × Bytes) :=
  Streams.writes ⟨w.terms.sink.bytes, w.index.sink.bytes, w.directory.sink.bytes⟩
    ++ [(Segment.descriptorExtension, Bytes.ofString (w.descriptor createdAt).toText)]

/-- A segment is stored with its streams and its infos at their spots. -/
theorem store_spec (h : fs.Houses w.segment dir spots) (createdAt : UInt64) :
    w.store dir createdAt fs = .ok () (fs.fill spots (w.stored createdAt)) := by
  have hstreams := Segment.writeStreams_spec h
    ⟨w.terms.sink.bytes, w.index.sink.bytes, w.directory.sink.bytes⟩
  have h' := h.fill (Streams.mem_extensions
    ⟨w.terms.sink.bytes, w.index.sink.bytes, w.directory.sink.bytes⟩)
  rw [store, bind_ok hstreams, stored, Files.fill_append]
  exact h'.write (by simp [Segment.extensions]) _

/-- **A segment is ended in its files.** -/
theorem closeIn_spec (hopen : w.closed = false) (hclose : close w = .ok () w')
    (h : fs.Houses w'.segment dir spots) (createdAt : UInt64) :
    closeIn dir createdAt (w, fs) = .ok () (w', fs.fill spots (w'.stored createdAt)) := by
  have hapart : Call.apart close (w, fs) = .ok () (w', fs) := by
    rw [Call.apart, hclose]
  rw [closeIn]
  show (Call.apart close >>= fun _ => if w.closed then pure () else _ : Filing Unit) (w, fs) = _
  rw [bind_ok hapart, hopen]
  have hget : (get : Filing _) (w', fs) = .ok (w', fs) (w', fs) := rfl
  rw [if_neg Bool.false_ne_true, bind_ok hget]
  dsimp only
  rw [store_spec h]
  rfl

/-- The files of a segment that was ended stay. -/
theorem release_closed (hclosed : w.closed = true) (hsound : w.failed = false) (dir : Path)
    (fs : Files) : w.release dir fs = fs := by
  rw [release, hclosed, hsound]
  rfl

end Writer

/-- **A dictionary is written** where its files can be. -/
theorem Listing.writeDictionary_spec {fields : List (FieldInfo × FieldTerms)}
    {w w₁ w₂ : Writer Memory} (hfields : writeFields fields w = .ok () w₁)
    (hopen : w₁.closed = false) (hclose : Writer.close w₁ = .ok () w₂)
    (h : fs.Houses w₂.segment dir spots) (createdAt : UInt64) :
    writeDictionary fields dir createdAt w fs
      = .ok w₂ (fs.fill spots (w₂.stored createdAt)) := by
  obtain ⟨-, hsound, hclosed, -⟩ := Writer.close_ok hclose
  have hapart : (writeFields fields).apart (w, fs) = .ok () (w₁, fs) := by
    rw [Writer.Call.apart, hfields]
  rw [writeDictionary, hapart]
  simp only
  rw [Writer.closeIn_spec hopen hclose h]
  simp only
  rw [Writer.release_closed hclosed hsound]

/-- **A segment is opened from the bytes in its files.** -/
theorem Reader.openIn_eq (h : fs.Houses s dir spots) {streams : Streams Bytes}
    (hterms : fs.node? (spots Segment.termsExtension) = some (.file streams.terms))
    (hindex : fs.node? (spots Segment.indexExtension) = some (.file streams.index))
    (hdirectory : fs.node? (spots Segment.metaExtension) = some (.file streams.directory))
    (infos : List FieldInfo) : openIn fs dir s infos = Reader.open streams s infos := by
  have hread₁ := ((h Segment.termsExtension (by simp [Segment.extensions])).read hterms).2
  have hread₂ := ((h Segment.indexExtension (by simp [Segment.extensions])).read hindex).2
  have hread₃ := ((h Segment.metaExtension (by simp [Segment.extensions])).read hdirectory).2
  rw [openIn]
  show (ofMedium (fs.mapped (s.path dir Segment.termsExtension)) >>= fun _ =>
    ofMedium (fs.mapped (s.path dir Segment.indexExtension)) >>= fun _ =>
    ofMedium (fs.mapped (s.path dir Segment.metaExtension)) >>= fun _ => _) = _
  rw [hread₁, hread₂, hread₃]
  rfl

end

end Lexicon

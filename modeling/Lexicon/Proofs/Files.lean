import Lexicon.Files
import Lexicon.Proofs.Reading

/-!
# Files are kept

What was written to a path is read from it, and writing to one path leaves the others alone. A path
is followed through directories only, so it leads to the same spot whatever files come and go
(`locate_mono`); a path that can be written to is at a spot of its own (`At`), and from then on it
is the spot that counts.

> **`At.write`** — what can be written to once can be written to again, and is read back;
> **`At.put`** — and a file at another spot is as it was;
> **`makeDirs_again`** — a directory that was made need not be made again.
-/

namespace Lexicon

/-! ## Names of paths -/

/-- What has no separator in it stays with the part that it is put behind. -/
theorem splitOn_append {α : Type} [DecidableEq α] {separator : α} (front : List α) {back : List α}
    (h : separator ∉ back) :
    ∃ parts last, (front ++ back).splitOn separator = parts ++ [last ++ back] := by
  induction front with
  | nil =>
    refine ⟨[], [], ?_⟩
    exact List.splitOn_eq_singleton h
  | cons a front ih =>
    obtain ⟨parts, last, hparts⟩ := ih
    rw [List.cons_append, List.splitOn_cons_eq_if_modifyHead, hparts]
    by_cases ha : a = separator
    · exact ⟨[] :: parts, last, by rw [if_pos (beq_iff_eq.mpr ha)]; rfl⟩
    · rw [if_neg (by simpa using ha)]
      cases parts with
      | nil => exact ⟨[], a :: last, rfl⟩
      | cons part parts => exact ⟨(a :: part) :: parts, last, rfl⟩

/-- The last name of a path ends as the path does, as far as there is no slash. -/
theorem Path.getLast?_names {p : Path} {front ending : List Char}
    (hpath : p.text.toList = front ++ ending) (hslash : '/' ∉ ending) (hne : ending ≠ []) :
    ∃ name, p.names.getLast? = some name ∧ ending <:+ name.toList := by
  obtain ⟨parts, last, hparts⟩ := splitOn_append front hslash
  refine ⟨String.ofList (last ++ ending), ?_, ?_⟩
  · have hname : String.ofList (last ++ ending) ≠ "" := by
      intro hempty
      have := congrArg String.toList hempty
      rw [String.toList_ofList] at this
      exact hne (List.append_eq_nil_iff.mp this).2
    have hkept : [String.ofList (last ++ ending)].filter (· ≠ "")
        = [String.ofList (last ++ ending)] :=
      List.filter_eq_self.mpr fun x hx => decide_eq_true (List.mem_singleton.mp hx ▸ hname)
    rw [names, hpath, hparts, List.map_append, List.filter_append, List.map_singleton, hkept,
      List.getLast?_concat]
  · rw [String.toList_ofList]
    exact List.suffix_append ..

namespace Files

variable {fs fs' : Files} {p : Path} {spot other : Spot}

/-! ## What is at a spot -/

/-- All directories that were there still are. -/
structure Keeps (fs fs' : Files) : Prop where
  working : fs'.working = fs.working
  dirs : ∀ spot, fs.node? spot = some .dir → fs'.node? spot = some .dir

/-- A name leads to where it is, to the same directory, or to the one above. -/
theorem enter_eq (fs : Files) (dir : Spot) (name : String) : fs.enter dir name =
    if name = "." then .ok dir
    else if name = ".." then .ok dir.dropLast
    else child dir name >>= fun spot =>
      match fs.node? spot with
      | some .dir => .ok spot
      | some (.file _) => .error .notDirectory
      | none => .error .missing := by
  unfold enter
  by_cases hdot : name = "."
  · rw [if_pos hdot, if_pos hdot]; rfl
  · rw [if_neg hdot, if_neg hdot]
    by_cases hdots : name = ".."
    · rw [if_pos hdots, if_pos hdots]; rfl
    · rw [if_neg hdots, if_neg hdots]
      rfl

/-- A directory that is entered can be entered when more is there. -/
theorem enter_mono (h : fs.Keeps fs') {dir dir' : Spot} {name : String}
    (henter : fs.enter dir name = .ok dir') : fs'.enter dir name = .ok dir' := by
  rw [enter_eq] at henter ⊢
  split at henter
  next hdot => rwa [if_pos hdot]
  next hdot =>
    rw [if_neg hdot]
    split at henter
    next hdots => rwa [if_pos hdots]
    next hdots =>
      rw [if_neg hdots]
      obtain ⟨spot, hchild, hnode⟩ := of_bind_eq_ok henter
      rw [hchild]
      split at hnode
      next hdir =>
        show (match fs'.node? spot with
          | some .dir => .ok spot
          | some (.file _) => .error .notDirectory
          | none => .error .missing : Except MediumFault Spot) = _
        rw [h.dirs spot hdir]
        exact hnode
      next => cases hnode
      next => cases hnode

/-- Directories that are entered one after the other can be when more is there. -/
theorem foldlM_enter_mono (h : fs.Keeps fs') (names : List String) :
    ∀ {dir dir' : Spot}, names.foldlM fs.enter dir = .ok dir' →
      names.foldlM fs'.enter dir = .ok dir' := by
  induction names with
  | nil => exact fun hfold => hfold
  | cons name names ih =>
    intro dir dir' hfold
    rw [List.foldlM_cons] at hfold ⊢
    obtain ⟨mid, henter, hrest⟩ := of_bind_eq_ok hfold
    rw [enter_mono h henter]
    exact ih hrest

/-- What is made of the last name of a path, in the directory that the others lead to. -/
def Target.ofLast (dir : Spot) : Option String → Target
  | none | some "." => .passed dir
  | some ".." => .passed dir.dropLast
  | some name => .entry dir name

/-- A path is followed up to its last name, which may be missing. -/
theorem locate_eq (fs : Files) (p : Path) : fs.locate p =
    if '\x00' ∈ p.text.toList then .error .badName
    else if p.text = "" then .error .missing
    else if pathLimit ≤ p.text.utf8ByteSize then .error .nameTooLong
    else p.names.dropLast.foldlM fs.enter (if p.isAbsolute then [] else fs.working) >>= fun dir =>
      .ok (.ofLast dir p.names.getLast?) := by
  unfold locate
  by_cases hbad : '\x00' ∈ p.text.toList
  · rw [if_pos hbad, if_pos hbad]; rfl
  rw [if_neg hbad, if_neg hbad]
  by_cases hempty : p.text = ""
  · rw [if_pos hempty, if_pos hempty]; rfl
  rw [if_neg hempty, if_neg hempty]
  by_cases hlong : pathLimit ≤ p.text.utf8ByteSize
  · rw [if_pos hlong, if_pos hlong]; rfl
  rw [if_neg hlong, if_neg hlong]
  show (List.foldlM fs.enter _ p.names.dropLast >>= _) = _
  congr 1
  funext dir
  generalize p.names.getLast? = last
  cases last with
  | none => rfl
  | some name =>
    by_cases hdot : name = "."
    · subst hdot; rfl
    by_cases hdots : name = ".."
    · subst hdots; rfl
    rw [Target.ofLast]
    · split <;> simp_all
      rfl
    · simpa using hdot
    · simpa using hdots

/-- An entry has the last name of its path. -/
theorem last_of_locate {dir : Spot} {name : String} (h : fs.locate p = .ok (.entry dir name)) :
    p.names.getLast? = some name := by
  rw [locate_eq] at h
  split at h
  next => cases h
  split at h
  next => cases h
  split at h
  next => cases h
  obtain ⟨d, -, htarget⟩ := of_bind_eq_ok h
  unfold Target.ofLast at htarget
  split at htarget <;> cases htarget
  assumption

/-- **A path is followed through directories only.** -/
theorem locate_mono (h : fs.Keeps fs') {target : Target} (hlocate : fs.locate p = .ok target) :
    fs'.locate p = .ok target := by
  rw [locate_eq] at hlocate ⊢
  by_cases hbad : '\x00' ∈ p.text.toList
  · rw [if_pos hbad] at hlocate
    cases hlocate
  rw [if_neg hbad] at hlocate ⊢
  by_cases hempty : p.text = ""
  · rw [if_pos hempty] at hlocate
    cases hlocate
  rw [if_neg hempty] at hlocate ⊢
  by_cases hlong : pathLimit ≤ p.text.utf8ByteSize
  · rw [if_pos hlong] at hlocate
    cases hlocate
  rw [if_neg hlong] at hlocate ⊢
  obtain ⟨dir, hfold, htarget⟩ := of_bind_eq_ok hlocate
  rw [h.working, foldlM_enter_mono h _ hfold]
  exact htarget

/-! ## Spots of files -/

/-- The path leads to a place for a file at this spot. -/
structure At (fs : Files) (p : Path) (spot : Spot) : Prop where
  target : ∃ dir name, fs.locate p = .ok (.entry dir name) ∧ child dir name = .ok spot
  file : p.endsInSlash = false
  free : fs.node? spot ≠ some .dir

/-- The files with one at a spot. -/
def put (fs : Files) (spot : Spot) (data : Bytes) : Files :=
  { fs with files := (fs.erase spot).files ++ [(spot, data)] }

/-- A file that is left out is not found. -/
theorem lookup_filter_ne {files : List (Spot × Bytes)} :
    (files.filter fun f => f.1 ≠ spot).lookup spot = none := by
  rw [List.lookup_eq_none_iff]
  intro f hf
  rw [bne_iff_ne]
  exact Ne.symm (of_decide_eq_true (List.mem_filter.mp hf).2)

/-- Other files are found as before. -/
theorem lookup_filter_of_ne (hne : other ≠ spot) (files : List (Spot × Bytes)) :
    (files.filter fun f => f.1 ≠ spot).lookup other = files.lookup other := by
  induction files with
  | nil => rfl
  | cons f files ih =>
    by_cases hf : f.1 = spot
    · rw [List.filter_cons_of_neg (by simpa using hf), ih, List.lookup_cons,
        beq_false_of_ne (fun heq => hne (heq.trans hf))]
    · rw [List.filter_cons_of_pos (by simpa using hf), List.lookup_cons, List.lookup_cons, ih]

/-- What is at a spot that is no directory is the file there. -/
theorem node?_put_self (data : Bytes) (h : fs.node? spot ≠ some .dir) :
    (fs.put spot data).node? spot = some (.file data) := by
  unfold node? at h ⊢
  split at h
  next => exact absurd rfl h
  next hdir =>
    rw [if_neg (by exact hdir), put, erase, List.lookup_append, lookup_filter_ne]
    simp

/-- What is at another spot is as it was. -/
theorem node?_put_of_ne (data : Bytes) (hne : other ≠ spot) :
    (fs.put spot data).node? other = fs.node? other := by
  unfold node?
  have hlast : [(spot, data)].lookup other = none := by
    rw [List.lookup_cons, beq_false_of_ne hne]
    rfl
  rw [put, erase]
  simp only
  rw [List.lookup_append, lookup_filter_of_ne hne, hlast, Option.or_none]

/-- A file that is put takes no directory away. -/
theorem keeps_put (fs : Files) (spot : Spot) (data : Bytes) : fs.Keeps (fs.put spot data) := by
  refine ⟨rfl, fun other hdir => ?_⟩
  unfold node? at hdir ⊢
  split at hdir
  next h => rw [if_pos (by exact h)]
  next =>
    cases hlookup : fs.files.lookup other with
    | none => rw [hlookup] at hdir; cases hdir
    | some data => rw [hlookup] at hdir; cases hdir

/-- Writing puts the bytes where the path leads, unless a directory is there. -/
theorem write_eq (p : Path) (data : Bytes) (fs : Files) : write p data fs =
    match fs.locate p with
    | .error fault => .error fault fs
    | .ok (.passed _) => .error .isDirectory fs
    | .ok (.entry dir name) =>
      if p.endsInSlash then .error .isDirectory fs
      else
        match child dir name with
        | .error fault => .error fault fs
        | .ok spot =>
          if fs.node? spot = some .dir then .error .isDirectory fs
          else .ok () (fs.put spot data) := by
  unfold write
  show (lift (fs.locate p) >>= _ : OnFiles Unit) fs = _
  cases fs.locate p with
  | error fault => rfl
  | ok target =>
    cases target with
    | passed dir => rfl
    | entry dir name =>
      show (if p.endsInSlash then _ else _ : OnFiles Unit) fs = if p.endsInSlash then _ else _
      cases p.endsInSlash with
      | true => rfl
      | false =>
      show (lift (child dir name) >>= _ : OnFiles Unit) fs = match child dir name with
        | .error fault => .error fault fs
        | .ok spot => _
      cases child dir name with
      | error fault => rfl
      | ok spot =>
        have hspot : lift (.ok spot) fs = .ok spot fs := rfl
        rw [bind_ok hspot]
        show _ = if fs.node? spot = some .dir then _ else _
        cases fs.node? spot with
        | none => rfl
        | some node => cases node <;> rfl

/-- **Where a file can be written there is a place for it.** -/
theorem at_of_write {data : Bytes} (h : write p data fs = .ok () fs') :
    ∃ spot, fs.At p spot ∧ fs' = fs.put spot data := by
  rw [write_eq] at h
  split at h
  next => cases h
  next => cases h
  next dir name hlocate =>
    split at h
    next => cases h
    next hslash =>
      split at h
      next => cases h
      next spot hchild =>
        split at h
        next => cases h
        next hfree =>
          cases h
          exact ⟨spot, ⟨⟨dir, name, hlocate, hchild⟩, Bool.eq_false_iff.mpr hslash, hfree⟩, rfl⟩

/-- **What can be written to once can be written to again**, with any bytes. -/
theorem At.write (h : fs.At p spot) (data : Bytes) :
    Files.write p data fs = .ok () (fs.put spot data) := by
  obtain ⟨dir, name, hlocate, hchild⟩ := h.target
  rw [write_eq, hlocate]
  simp only
  rw [if_neg (by simp [h.file]), hchild]
  exact if_neg h.free

/-- A place for a file stays one when there are more files. -/
theorem At.put (h : fs.At p spot) (data : Bytes) (hfree : fs.node? other ≠ some .dir) :
    (fs.put other data).At p spot := by
  obtain ⟨dir, name, hlocate, hchild⟩ := h.target
  refine ⟨⟨dir, name, locate_mono (keeps_put fs other data) hlocate, hchild⟩, h.file, ?_⟩
  by_cases hsame : spot = other
  · rw [hsame, node?_put_self data hfree]
    simp
  · rw [node?_put_of_ne data hsame]
    exact h.free

/-- What a path that leads to an entry finds. -/
theorem find_entry {dir : Spot} {name : String} (hlocate : fs.locate p = .ok (.entry dir name))
    (hchild : child dir name = .ok spot) : fs.find p =
    match fs.node? spot with
    | none => .error .missing
    | some .dir => .ok (spot, .dir)
    | some (.file data) =>
      if p.endsInSlash then .error .notDirectory else .ok (spot, .file data) := by
  unfold Files.find
  rw [hlocate]
  show (child dir name >>= _) = _
  rw [hchild]
  show (match fs.node? spot with
    | none => throw .missing
    | some .dir => return (spot, .dir)
    | some (.file data) => if p.endsInSlash then throw .notDirectory else return (spot, .file data)
      : Except MediumFault (Spot × Node)) = _
  cases fs.node? spot with
  | none => rfl
  | some node => cases node <;> rfl

/-- **What is at the spot of a path is read from the path.** -/
theorem At.read (h : fs.At p spot) {data : Bytes} (hdata : fs.node? spot = some (.file data)) :
    fs.read p = .ok data ∧ fs.mapped p = .ok data := by
  obtain ⟨dir, name, hlocate, hchild⟩ := h.target
  have hfind : fs.find p = .ok (spot, .file data) := by
    rw [find_entry hlocate hchild, hdata]
    exact if_neg (by simp [h.file])
  rw [Files.read, mapped, hfind]
  exact ⟨rfl, rfl⟩

/-- The name of a file ends as its path does, as far as there is no slash. -/
theorem At.exists_name (h : fs.At p spot) {front ending : List Char}
    (hpath : p.text.toList = front ++ ending) (hslash : '/' ∉ ending) (hne : ending ≠ []) :
    ∃ name, spot.getLast? = some name ∧ ending <:+ name.toList := by
  obtain ⟨dir, name, hlocate, hchild⟩ := h.target
  obtain ⟨last, hlast, hending⟩ := Path.getLast?_names hpath hslash hne
  rw [last_of_locate hlocate, Option.some_inj] at hlast
  rw [child] at hchild
  split at hchild <;> cases hchild
  exact ⟨name, List.getLast?_concat, hlast ▸ hending⟩

/-! ## Directories -/

/-- A directory is made where the path leads, unless something is there. -/
theorem makeDir_eq (p : Path) (fs : Files) : makeDir p fs =
    match fs.locate p with
    | .error fault => .error fault fs
    | .ok (.passed _) => .error .occupied fs
    | .ok (.entry dir name) =>
      match child dir name with
      | .error fault => .error fault fs
      | .ok spot =>
        if (fs.node? spot).isSome then .error .occupied fs
        else .ok () { fs with dirs := fs.dirs ++ [spot] } := by
  unfold makeDir
  show (lift (fs.locate p) >>= _ : OnFiles Unit) fs = _
  cases fs.locate p with
  | error fault => rfl
  | ok target =>
    cases target with
    | passed dir => rfl
    | entry dir name =>
      show (lift (child dir name) >>= _ : OnFiles Unit) fs = match child dir name with
        | .error fault => .error fault fs
        | .ok spot => _
      cases child dir name with
      | error fault => rfl
      | ok spot =>
        show (if (fs.node? spot).isSome then _ else _ : OnFiles Unit) fs
          = if (fs.node? spot).isSome then _ else _
        cases (fs.node? spot).isSome <;> rfl

/-- A directory at a spot, beside those that there are. -/
theorem keeps_dir (fs : Files) (spot : Spot) :
    fs.Keeps { fs with dirs := fs.dirs ++ [spot] } ∧
      node? { fs with dirs := fs.dirs ++ [spot] } spot = some .dir := by
  refine ⟨⟨rfl, fun other hdir => ?_⟩, ?_⟩
  · unfold node? at hdir ⊢
    split at hdir
    next h =>
      rw [if_pos]
      rw [Bool.or_eq_true, List.contains_iff_mem] at h ⊢
      exact h.imp id fun hmem => List.mem_append_left _ hmem
    next =>
      cases hlookup : fs.files.lookup other with
      | none => rw [hlookup] at hdir; cases hdir
      | some data => rw [hlookup] at hdir; cases hdir
  · unfold node?
    rw [if_pos]
    rw [Bool.or_eq_true, List.contains_iff_mem]
    exact .inr (List.mem_append_right _ (List.mem_singleton.mpr rfl))

/-- A directory that cannot be made changes nothing. -/
theorem makeDir_error {fault : MediumFault} (h : makeDir p fs = .error fault fs') : fs' = fs := by
  rw [makeDir_eq] at h
  split at h
  next => cases h; rfl
  next => cases h; rfl
  next =>
    split at h
    next => cases h; rfl
    next => split at h <;> cases h; rfl

/-- A directory that was made is there. -/
theorem makeDir_ok (h : makeDir p fs = .ok () fs') :
    makeDir p fs' = .error .occupied fs' ∧ fs'.isDir p = true := by
  rw [makeDir_eq] at h
  split at h
  next => cases h
  next => cases h
  next dir name hlocate =>
    split at h
    next => cases h
    next spot hchild =>
      split at h <;> cases h
      obtain ⟨hkeeps, hnode⟩ := keeps_dir fs spot
      have hlocate' := locate_mono hkeeps hlocate
      constructor
      · rw [makeDir_eq, hlocate']
        simp only [hchild]
        rw [if_pos (by rw [hnode]; rfl)]
      · rw [isDir, find_entry hlocate' hchild, hnode]

/-- That a directory is there already is no fault. -/
theorem ensureDir_eq (p : Path) (fs : Files) : ensureDir p fs =
    match makeDir p fs with
    | .ok () fs => .ok () fs
    | .error fault fs =>
      if fault = .occupied ∧ fs.isDir p then .ok () fs else .error fault fs := rfl

/-- A directory that was ensured is ensured again without change. -/
theorem ensureDir_again (h : ensureDir p fs = .ok () fs') : ensureDir p fs' = .ok () fs' := by
  rw [ensureDir_eq] at h
  split at h
  next made hmake =>
    cases h
    obtain ⟨hagain, hdir⟩ := makeDir_ok hmake
    rw [ensureDir_eq, hagain]
    exact if_pos ⟨rfl, hdir⟩
  next fault failed hmake =>
    split at h <;> cases h
    obtain rfl := makeDir_error hmake
    rw [ensureDir_eq, hmake]
    exact if_pos ‹_›

/-- Directories above are only ensured where one is missing. -/
theorem ensureDirs_eq (p : Path) (outer : List Path) (fs : Files) : ensureDirs (p :: outer) fs =
    match ensureDir p fs with
    | .error .missing fs => (do ensureDirs outer; ensureDir p) fs
    | result => result := rfl

/-- **A directory that was made need not be made again.** -/
theorem makeDirs_again (h : makeDirs p fs = .ok () fs') : makeDirs p fs' = .ok () fs' := by
  rw [makeDirs] at h ⊢
  by_cases hempty : p.components.isEmpty = true
  · rw [if_pos hempty]
    rfl
  rw [if_neg hempty] at h ⊢
  have hmade : ∃ before, ensureDir p before = .ok () fs' := by
    rw [ensureDirs_eq] at h
    split at h
    next fs₁ _ =>
      obtain ⟨_, fs₂, -, hagain⟩ := exists_of_bind_ok h
      exact ⟨fs₂, hagain⟩
    next => exact ⟨fs, h⟩
  obtain ⟨before, hbefore⟩ := hmade
  rw [ensureDirs_eq, ensureDir_again hbefore]

end Files

end Lexicon

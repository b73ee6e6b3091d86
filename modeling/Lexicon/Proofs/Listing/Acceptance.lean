import Lexicon.Proofs.Listing.Merging

/-!
# Which texts are listings

A line is `Faulty` behind others if the grammar does not have it or if it leaves its term without a
document; it is `Overfull` if, with its postings up to some place, its term occurs in a document
more often than 32 bits count. A text is read just if it has no such line, and reading breaks off
just if the first such line is overfull.

> **`Listing.parse_merges`** — a listing that is accepted has exactly the fields, terms, documents
> and frequencies that its lines tell;
> **`Listing.parse_exact`** — which texts are refused, at which of them reading breaks off
> (`parse_overflows` has one), and what the listing of any other shows (`Shows`).
-/

namespace Lexicon

namespace Listing

variable {l l' : Listing} {lines : Told} {name : String} {term : Bytes} {before rest : List Bytes}
  {bytes : Bytes} {line : ListingLine}

/-! ## Faults -/

/-- The lines of a text that say something. -/
def dataLines (data : Bytes) : List Bytes :=
  ((data.splitOn 0x0A).map withoutReturn).filter speaks

/-- A line is faulty behind others: it is broken, or neither it nor any of them has a document for
the term that it names. -/
inductive Faulty (before : List Bytes) : Bytes → Prop
  | broken {bytes : Bytes} (h : ListingLine.Broken bytes) : Faulty before bytes
  | bare {bytes : Bytes} {line : ListingLine} (hline : ListingLine.Spells bytes line)
      (h : ∀ bytes' ∈ before ++ [bytes], ∀ line', ListingLine.Spells bytes' line' →
        line'.field = line.field → line'.term = line.term → line'.postings = []) :
      Faulty before bytes

/-- A line is overfull behind others: they and its postings up to some place tell that its term
occurs in a document more often than 32 bits count. -/
def Overfull (before : List Bytes) (bytes : Bytes) : Prop :=
  ∃ (lines : Told) (line : ListingLine) (doc : UInt32),
    List.Forall₂ ListingLine.Spells before lines ∧ ListingLine.Starts bytes line ∧
      2 ^ 32 ≤ Told.occurrences (lines ++ [line]) line.field line.term doc

/-- One of the lines is faulty or overfull behind those before it. -/
def Flawed (before rest : List Bytes) : Prop :=
  ∃ front bytes behind, rest = front ++ bytes :: behind ∧
    (Faulty (before ++ front) bytes ∨ Overfull (before ++ front) bytes)

/-- One of the lines is overfull, and none before it is faulty or overfull. -/
def Overflows (before rest : List Bytes) : Prop :=
  ∃ front bytes behind, rest = front ++ bytes :: behind ∧ ¬ Flawed before front ∧
    Overfull (before ++ front) bytes

theorem not_flawed_nil : ¬ Flawed before [] := by
  intro h
  obtain ⟨front, bytes, behind, heq, -⟩ := h
  simp at heq

theorem not_overflows_nil : ¬ Overflows before [] := by
  intro h
  obtain ⟨front, bytes, behind, heq, -⟩ := h
  simp at heq

/-- Lines are flawed if the first one is, or the others behind it. -/
theorem flawed_cons_iff : Flawed before (bytes :: rest) ↔
    (Faulty before bytes ∨ Overfull before bytes) ∨ Flawed (before ++ [bytes]) rest := by
  constructor
  · intro h
    obtain ⟨front, bytes', behind, heq, hflaw⟩ := h
    cases front with
    | nil =>
      obtain ⟨rfl, -⟩ := List.cons.inj heq
      exact .inl (List.append_nil before ▸ hflaw)
    | cons first front =>
      obtain ⟨rfl, rfl⟩ := List.cons.inj heq
      refine .inr ⟨front, bytes', behind, rfl, ?_⟩
      rwa [List.append_assoc, List.singleton_append]
  · intro h
    obtain hflaw | ⟨front, bytes', behind, rfl, hflaw⟩ := h
    · exact ⟨[], bytes, rest, rfl, by rwa [List.append_nil]⟩
    · refine ⟨bytes :: front, bytes', behind, rfl, ?_⟩
      rwa [List.append_assoc, List.singleton_append] at hflaw

/-- Reading breaks off at the first line, or behind it if that one is fine. -/
theorem overflows_cons_iff : Overflows before (bytes :: rest) ↔ Overfull before bytes ∨
    ¬ (Faulty before bytes ∨ Overfull before bytes) ∧ Overflows (before ++ [bytes]) rest := by
  constructor
  · intro h
    obtain ⟨front, bytes', behind, heq, hclean, hover⟩ := h
    cases front with
    | nil =>
      obtain ⟨rfl, -⟩ := List.cons.inj heq
      exact .inl (List.append_nil before ▸ hover)
    | cons first front =>
      obtain ⟨rfl, rfl⟩ := List.cons.inj heq
      rw [flawed_cons_iff, not_or] at hclean
      refine .inr ⟨hclean.1, front, bytes', behind, rfl, hclean.2, ?_⟩
      rwa [List.append_assoc, List.singleton_append]
  · intro h
    obtain hover | ⟨hfirst, front, bytes', behind, rfl, hclean, hover⟩ := h
    · exact ⟨[], bytes, rest, rfl, not_flawed_nil, by rwa [List.append_nil]⟩
    · refine ⟨bytes :: front, bytes', behind, rfl, ?_, ?_⟩
      · rw [flawed_cons_iff, not_or]
        exact ⟨hfirst, hclean⟩
      · rwa [List.append_assoc, List.singleton_append] at hover

/-! ## What is refused -/

/-- The listing has a term if a line names it. -/
theorem Tells.has_iff (h : l.Tells lines) :
    l.has (Bytes.ofString name) term = true ↔ lines.ofTerm name term ≠ [] := by
  refine ⟨h.ofTerm_ne_nil rfl, fun hne => ?_⟩
  have hfield : lines.ofField name ≠ [] := fun hnil => hne (by rw [Told.ofTerm, hnil]; rfl)
  rw [has, h.get?_ofString, if_neg hfield, Option.bind_some, FieldListing.get?_ofLines,
    if_neg (by exact hne)]
  rfl

/-- A line is bare if it has no postings and its term was never named: then, and only then, no line
up to it has a document for its term. -/
theorem Tells.bare_iff (h : l.Tells lines) :
    (line.postings = [] ∧ lines.ofTerm line.field line.term = []) ↔
      ∀ line' ∈ lines ++ [line], line'.field = line.field → line'.term = line.term →
        line'.postings = [] := by
  constructor
  · rintro ⟨hempty, hnone⟩ line' hmem hfield hterm
    rcases List.mem_append.mp hmem with hmem | hmem
    · have hof := Told.mem_ofTerm.mpr ⟨hmem, hfield, hterm⟩
      rw [hnone] at hof
      cases hof
    · rw [List.mem_singleton.mp hmem, hempty]
  · intro hall
    refine ⟨hall line (by simp) rfl rfl, ?_⟩
    by_contra hne
    refine h.postings_ne_nil hne (List.flatMap_eq_nil_iff.mpr fun other hother => ?_)
    obtain ⟨hmem, hfield, hterm⟩ := Told.mem_ofTerm.mp hother
    exact hall other (List.mem_append_left _ hmem) hfield hterm

/-- A line is added by its postings, unless it is bare. -/
theorem Tells.add_eq (h : l.Tells lines) (hline : line.Sound) : l.add line =
    if line.postings = [] ∧ lines.ofTerm line.field line.term = [] then
      .error (.noDocuments line.term)
    else l.addPostings line := by
  have hhas : l.has line.fieldKey line.term = true ↔ lines.ofTerm line.field line.term ≠ [] :=
    hline.key ▸ h.has_iff
  have hbare : (line.postings.isEmpty && !l.has line.fieldKey line.term) = true ↔
      line.postings = [] ∧ lines.ofTerm line.field line.term = [] := by
    rw [Bool.and_eq_true, List.isEmpty_iff, Bool.not_eq_true', ← Bool.not_eq_true, hhas, not_ne_iff]
  unfold Listing.add
  simp only [hbare]

/-- What lines say that are read is all that they say. -/
theorem forall_spelled_iff {P : ListingLine → Prop}
    (h : List.Forall₂ ListingLine.Spells before lines) :
    (∀ bytes ∈ before, ∀ line, ListingLine.Spells bytes line → P line) ↔
      ∀ line ∈ lines, P line := by
  constructor
  · intro hall line hmem
    obtain ⟨bytes, hbytes, hspells⟩ := h.exists_left hmem
    exact hall bytes hbytes line hspells
  · intro hall bytes hbytes line hspells
    obtain ⟨line', hmem, hspells'⟩ := h.exists_right hbytes
    exact hspells.unique hspells' ▸ hall line' hmem

/-- A line that is spelled is faulty just if it is bare. -/
theorem Tells.faulty_iff (h : l.Tells lines)
    (hbefore : List.Forall₂ ListingLine.Spells before lines)
    (hspells : ListingLine.Spells bytes line) : Faulty before bytes ↔
      line.postings = [] ∧ lines.ofTerm line.field line.term = [] := by
  rw [h.bare_iff, ← forall_spelled_iff (List.rel_append hbefore (.cons hspells .nil))]
  constructor
  · intro hfaulty
    cases hfaulty with
    | broken hbroken => exact absurd hspells hbroken.not_spells
    | bare hline hnone => rwa [hline.unique hspells] at hnone
  · exact .bare hspells

/-- Lines are spelled in one way. -/
theorem told_unique {lines' : Told} (h : List.Forall₂ ListingLine.Spells before lines) :
    List.Forall₂ ListingLine.Spells before lines' → lines' = lines := by
  induction h generalizing lines' with
  | nil => exact List.forall₂_nil_left_iff.mp
  | cons hfirst _ ih =>
    intro h'
    obtain ⟨line', rest', hfirst', hrest', rfl⟩ := List.forall₂_cons_left_iff.mp h'
    rw [hfirst.unique hfirst', ih hrest']

/-- The more postings are counted, the more of a document. -/
theorem occurrences_le_of_begins {line' : ListingLine} (hfield : line'.field = line.field)
    (hterm : line'.term = line.term) (hbegins : line'.postings <+: line.postings) (doc : UInt32) :
    Told.occurrences (lines ++ [line']) line.field line.term doc
      ≤ Told.occurrences (lines ++ [line]) line.field line.term doc := by
  obtain ⟨more, hmore⟩ := hbegins
  rw [Told.occurrences_append, Told.occurrences_append, Told.occurrences_singleton,
    Told.occurrences_singleton, if_pos ⟨hfield, hterm⟩, if_pos ⟨rfl, rfl⟩, ← hmore,
    Posting.total_append]
  omega

/-- A line is overfull just if what can be read of it is. -/
theorem overfull_iff (hbefore : List.Forall₂ ListingLine.Spells before lines)
    (hsaid : ListingLine.said bytes = some line) : Overfull before bytes ↔
      ∃ doc, 2 ^ 32 ≤ Told.occurrences (lines ++ [line]) line.field line.term doc := by
  constructor
  · intro h
    obtain ⟨lines', line', doc, hbefore', hstarts, hover⟩ := h
    obtain rfl := told_unique hbefore hbefore'
    obtain ⟨full, hfull, hbegins, hline⟩ := ListingLine.starts_iff.mp hstarts
    obtain rfl := Option.some.inj (hsaid.symm.trans hfull)
    have hfield : line'.field = line.field := by rw [hline]
    have hterm : line'.term = line.term := by rw [hline]
    rw [hfield, hterm] at hover
    exact ⟨doc, Nat.le_trans hover (occurrences_le_of_begins hfield hterm hbegins doc)⟩
  · intro h
    obtain ⟨doc, hover⟩ := h
    exact ⟨lines, line, doc, hbefore,
      ListingLine.starts_iff.mpr ⟨line, hsaid, List.prefix_rfl, rfl⟩, hover⟩

/-- A line that says nothing adds up to nothing. -/
theorem not_overfull_of_said (hsaid : ListingLine.said bytes = none) : ¬ Overfull before bytes := by
  intro h
  obtain ⟨lines', line', doc, -, hstarts, -⟩ := h
  obtain ⟨full, hfull, -⟩ := ListingLine.starts_iff.mp hstarts
  rw [hsaid] at hfull
  cases hfull

/-- Reading breaks off at the postings of a line that is overfull, and adds those of any other. -/
theorem Tells.addPostings_cases (h : l.Tells lines)
    (hbefore : List.Forall₂ ListingLine.Spells before lines)
    (hsaid : ListingLine.said bytes = some line) :
    (Overfull before bytes ∧ ∃ doc, l.addPostings line = .error (.overflow doc)) ∨
    (¬ Overfull before bytes ∧ l.addPostings line = .ok (l.put line)) := by
  obtain ⟨field, text, term, -, -, -, -, hline⟩ := ListingLine.exists_parts hsaid
  have hkey : line.fieldKey = Bytes.ofString line.field := by rw [hline]
  rw [overfull_iff hbefore hsaid]
  by_cases hfits : ∀ doc, Told.occurrences (lines ++ [line]) line.field line.term doc < 2 ^ 32
  · refine .inr ⟨fun hover => ?_, (h.addPostings_eq_ok_iff hkey).mpr ⟨rfl, hfits⟩⟩
    obtain ⟨doc, hdoc⟩ := hover
    exact absurd (hfits doc) (Nat.not_lt.mpr hdoc)
  · refine .inl ⟨?_, ?_⟩
    · push Not at hfits
      exact hfits
    · cases hadd : l.addPostings line with
      | ok l' => exact absurd ((h.addPostings_eq_ok_iff hkey).mp hadd).2 hfits
      | error fault =>
        obtain ⟨doc, rfl⟩ := exists_overflow hadd
        exact ⟨doc, rfl⟩

/-- A line without postings adds nothing that could be too much. -/
theorem Tells.not_overfull_of_bare (h : l.Tells lines)
    (hbefore : List.Forall₂ ListingLine.Spells before lines)
    (hsaid : ListingLine.said bytes = some line) (hempty : line.postings = []) :
    ¬ Overfull before bytes := by
  rw [overfull_iff hbefore hsaid]
  intro hover
  obtain ⟨doc, hdoc⟩ := hover
  have hless := h.counted line.field line.term doc
  rw [Told.occurrences_append, Told.occurrences_singleton, if_pos ⟨rfl, rfl⟩, hempty] at hdoc
  exact absurd hless (Nat.not_lt.mpr hdoc)

/-- What adding a line behind others comes to: reading breaks off at a line that is overfull, another
that is faulty is refused, and any other is told with those before. -/
inductive Verdict (before : List Bytes) (bytes : Bytes) (lines : Told) :
    Except LineFault Listing → Prop
  | overfull (doc : UInt32) (hover : Overfull before bytes) :
      Verdict before bytes lines (.error (.overflow doc))
  | faulty {fault : LineFault} (hfits : ¬ Overfull before bytes) (hfaulty : Faulty before bytes)
      (hne : ∀ doc, fault ≠ .overflow doc) : Verdict before bytes lines (.error fault)
  | told {line : ListingLine} {l : Listing} (hfits : ¬ Overfull before bytes)
      (hfine : ¬ Faulty before bytes) (hspells : ListingLine.Spells bytes line)
      (htells : l.Tells (lines ++ [line])) : Verdict before bytes lines (.ok l)

/-- A line that is read is bare, or its postings decide. -/
theorem Tells.verdict_of_parse (h : l.Tells lines)
    (hbefore : List.Forall₂ ListingLine.Spells before lines)
    (hparse : ListingLine.parse bytes = .ok line) : Verdict before bytes lines (l.add line) := by
  have hspells := ListingLine.parse_eq_ok_iff.mp hparse
  have hsound := ListingLine.sound_of_parse hparse
  have hsaid : ListingLine.said bytes = some line := by rw [ListingLine.said, hparse]
  have hfaulty := h.faulty_iff hbefore hspells
  have hadd := h.add_eq hsound
  by_cases hbare : line.postings = [] ∧ lines.ofTerm line.field line.term = []
  · rw [hadd, if_pos hbare]
    exact .faulty (h.not_overfull_of_bare hbefore hsaid hbare.1) (hfaulty.mpr hbare)
      fun _ hsame => by cases hsame
  · rw [if_neg hbare] at hadd
    obtain ⟨hover, doc, hbroken⟩ | ⟨hfits, hput⟩ := h.addPostings_cases hbefore hsaid
    · rw [hadd, hbroken]
      exact .overfull doc hover
    · have hok := hadd.trans hput
      rw [hok]
      exact .told hfits (fun hcase => hbare (hfaulty.mp hcase)) hspells (h.add hsound hok)

/-- Of a line that cannot be read, the postings up to the fault decide. -/
theorem Tells.verdict_of_unread (h : l.Tells lines)
    (hbefore : List.Forall₂ ListingLine.Spells before lines) {unread : UnreadLine}
    (hparse : ListingLine.parse bytes = .error unread) : Verdict before bytes lines
      (unread.said.elim (.ok l) l.addPostings >>= fun _ => .error unread.fault) := by
  have hfaulty : Faulty before bytes := by
    refine .broken (ListingLine.broken_iff.mpr fun line hline => ?_)
    rw [ListingLine.parse_eq_ok_iff.mpr hline] at hparse
    cases hparse
  have hne := ListingLine.parse_ne_overflow hparse
  have hsame : ListingLine.said bytes = unread.said := by rw [ListingLine.said, hparse]
  rw [← hsame]
  cases hsaid : ListingLine.said bytes with
  | none => exact .faulty (not_overfull_of_said hsaid) hfaulty hne
  | some line =>
    rw [Option.elim_some]
    obtain ⟨hover, doc, hbroken⟩ | ⟨hfits, hput⟩ := h.addPostings_cases hbefore hsaid
    · rw [hbroken]
      exact .overfull doc hover
    · rw [hput]
      exact .faulty hfits hfaulty hne

/-- **Reading breaks off at a line just if it is overfull, and refuses it just if it is faulty and
not overfull**; any other is told with those before. -/
theorem Tells.addLine_verdict (h : l.Tells lines)
    (hbefore : List.Forall₂ ListingLine.Spells before lines) (hspeaks : speaks bytes = true) :
    Verdict before bytes lines (l.addLine bytes) := by
  cases hparse : ListingLine.parse bytes with
  | ok line =>
    rw [addLine_of_parse hspeaks hparse]
    exact h.verdict_of_parse hbefore hparse
  | error unread =>
    rw [addLine_of_unread hspeaks hparse]
    exact h.verdict_of_unread hbefore hparse

/-- What reading lines came to behind those that were told: it is refused if one of them is flawed,
broken off if the first such line is overfull, and has told all of them otherwise. -/
structure Judges (result : Except ListingFault Listing) (before rest : List Bytes) (lines : Told) :
    Prop where
  flawed : (∃ fault, result = .error fault) ↔ Flawed before rest
  overflows : (∃ number doc, result = .error ⟨number, .overflow doc⟩) ↔ Overflows before rest
  read : ∀ l, result = .ok l → ∃ more, List.Forall₂ ListingLine.Spells rest more ∧
    l.Tells (lines ++ more)

/-- **Lines are judged by the first of them that is flawed.** -/
theorem addLines_judges (all : List Bytes) : ∀ (number : Nat) {l : Listing} {lines : Told}
    {before : List Bytes}, l.Tells lines → List.Forall₂ ListingLine.Spells before lines →
    Judges (l.addLines number all) before ((all.map withoutReturn).filter speaks) lines := by
  induction all with
  | nil =>
    intro number l lines before htells hbefore
    refine ⟨iff_of_false (fun h => ?_) not_flawed_nil, iff_of_false (fun h => ?_) not_overflows_nil,
      fun l' h => ?_⟩
    · obtain ⟨fault, hcase⟩ := h
      cases hcase
    · obtain ⟨_, _, hcase⟩ := h
      cases hcase
    · cases h
      exact ⟨[], .nil, (List.append_nil lines).symm ▸ htells⟩
  | cons bytes all ih =>
    intro number l lines before htells hbefore
    rw [List.map_cons, addLines]
    by_cases hspeaks : speaks (withoutReturn bytes) = true
    case neg =>
      rw [addLine, if_neg hspeaks, List.filter_cons_of_neg hspeaks]
      exact ih (number + 1) htells hbefore
    rw [List.filter_cons_of_pos hspeaks]
    have hverdict := htells.addLine_verdict hbefore hspeaks
    generalize l.addLine (withoutReturn bytes) = result at hverdict ⊢
    cases hverdict with
    | overfull doc hover =>
      exact ⟨iff_of_true ⟨_, rfl⟩ (flawed_cons_iff.mpr (.inl (.inr hover))),
        iff_of_true ⟨_, _, rfl⟩ (overflows_cons_iff.mpr (.inl hover)), nofun⟩
    | faulty hfits hfaulty hne =>
      refine ⟨iff_of_true ⟨_, rfl⟩ (flawed_cons_iff.mpr (.inl (.inl hfaulty))),
        iff_of_false (fun h => ?_) (fun h => ?_), nofun⟩
      · obtain ⟨number', doc, hcase⟩ := h
        cases hcase
        exact hne doc rfl
      · obtain hover | ⟨hclean, -⟩ := overflows_cons_iff.mp h
        · exact hfits hover
        · exact hclean (.inl hfaulty)
    | told hfits hfine hspells htells₁ =>
      have hclean := not_or.mpr ⟨hfine, hfits⟩
      obtain ⟨hflawed, hoverflows, hread⟩ :=
        ih (number + 1) htells₁ (List.rel_append hbefore (.cons hspells .nil))
      refine ⟨?_, ?_, fun l' h => ?_⟩
      · rw [flawed_cons_iff, or_iff_right hclean]
        exact hflawed
      · rw [overflows_cons_iff, or_iff_right hfits, and_iff_right hclean]
        exact hoverflows
      · obtain ⟨more, hmore, htold⟩ := hread l' h
        exact ⟨_ :: more, .cons hspells hmore, List.append_cons .. ▸ htold⟩

/-- The lines that are spelled are those that are read. -/
theorem filterMap_parse (h : List.Forall₂ ListingLine.Spells before lines) :
    before.filterMap (fun line => (ListingLine.parse line).toOption) = lines := by
  induction h with
  | nil => rfl
  | cons hfirst _ ih =>
    rw [List.filterMap_cons, ListingLine.parse_eq_ok_iff.mpr hfirst, ih]
    rfl

/-- **A listing that is accepted has what its lines tell**, and nothing else. -/
theorem parse_merges {data : Bytes} (h : parse data = .ok l) : l.Tells (told data) := by
  obtain ⟨lines, hlines, htells⟩ := (addLines_judges _ 1 tells_nothing .nil).read l h
  rw [told, filterMap_parse hlines]
  exact htells

/-! ## What is kept -/

/-- How often a term occurs in a document, if the listing has it there. -/
def frequency? (l : Listing) (name : String) (term : Bytes) (doc : UInt32) : Option UInt32 :=
  ((l.fields.get? (Bytes.ofString name)).bind (·.terms.get? term)).bind (·.get? doc)

/-- A frequency is there if a line tells it, and is the number of occurrences. -/
theorem Tells.frequency?_eq (h : l.Tells lines) (name : String) (term : Bytes) (doc : UInt32) :
    l.frequency? name term doc =
      if (lines.ofTerm name term).postings.filter (·.doc = doc) = [] then none
      else some (.ofNat (lines.occurrences name term doc)) := by
  have hterm : (lines.ofField name).filter (·.term = term) = lines.ofTerm name term := rfl
  rw [frequency?, h.get?_ofString]
  by_cases hfield : lines.ofField name = []
  · have hnone : lines.ofTerm name term = [] := by rw [Told.ofTerm, hfield, List.filter_nil]
    rw [if_pos hfield, hnone]
    rfl
  · rw [if_neg hfield, Option.bind_some, FieldListing.get?_ofLines, hterm]
    by_cases hnone : lines.ofTerm name term = []
    · rw [if_pos hnone, hnone]
      rfl
    · rw [if_neg hnone, Option.bind_some, DocFreqs.get?_ofPostings]
      rfl

/-- A frequency that is there is the number of occurrences. -/
theorem Tells.toNat_of_frequency? (h : l.Tells lines) {doc freq : UInt32}
    (hfreq : l.frequency? name term doc = some freq) :
    freq.toNat = lines.occurrences name term doc := by
  rw [h.frequency?_eq] at hfreq
  split at hfreq <;> cases hfreq
  exact UInt32.toNat_ofNat_of_lt' (h.counted name term doc)

/-- The info of a field has its place as its number. -/
theorem getElem?_fieldInfos (l : Listing) (i : Nat) : l.fieldInfos[i]? =
    l.fields.values[i]?.map fun f => ⟨f.name, .ofNat i, f.options⟩ := by
  rw [fieldInfos, List.getElem?_map, List.getElem?_zipIdx, Option.map_map, Nat.zero_add]
  rfl

/-- The infos are named like the fields. -/
theorem map_name_fieldInfos (l : Listing) :
    l.fieldInfos.map (·.name) = l.fields.values.map (·.name) := by
  have hfirst := List.zipIdx_map_fst 0 l.fields.values
  rw [fieldInfos, List.map_map]
  conv => rhs; rw [← hfirst, List.map_map]
  rfl

/-- The keys of a listing are the bytes of the names. -/
theorem Tells.keys_eq (h : l.Tells lines) :
    l.fields.keys = l.fields.values.map fun f => Bytes.ofString f.name := by
  rw [SortedMap.keys, SortedMap.values, List.map_map]
  refine List.map_congr_left fun p hp => ?_
  exact (h.exists_name (SortedMap.get?_eq_some_iff.mpr hp)).1

/-- The listing has what lines say: the documents of a term with the sums of their postings, and the
fields in the order of their names. -/
structure Shows (l : Listing) (lines : Told) : Prop where
  /-- A document is absent just if no posting names it. -/
  absent : ∀ name term doc, l.frequency? name term doc = none ↔
    ∀ p ∈ (lines.ofTerm name term).postings, p.doc ≠ doc
  sum : ∀ name term doc freq, l.frequency? name term doc = some freq →
    freq.toNat = lines.occurrences name term doc
  named : ∀ name, name ∈ l.fieldInfos.map (·.name) ↔ ∃ line ∈ lines, line.field = name
  /-- A field has frequencies just if one of its postings has. -/
  options : ∀ info ∈ l.fieldInfos,
    info.options = if lines.hasFreqs info.name then .freqs else .docs
  ordered : l.fieldInfos.Pairwise fun info info' =>
    Bytes.ofString info.name < Bytes.ofString info'.name
  numbered : ∀ (i : Nat) (info : FieldInfo), l.fieldInfos[i]? = some info → info.number = .ofNat i

/-- **A listing shows what was told.** -/
theorem Tells.shows (h : l.Tells lines) : l.Shows lines where
  absent name term doc := by
    rw [h.frequency?_eq]
    simp only [ite_eq_left_iff, reduceCtorEq, imp_false, not_not, List.filter_eq_nil_iff,
      decide_eq_true_eq, ne_eq]
  sum _ _ _ _ hfreq := h.toNat_of_frequency? hfreq
  named name := by
    have hfields : (∃ f ∈ l.fields.values, f.name = name) ↔ lines.ofField name ≠ [] :=
      h.exists_field_iff
    rw [map_name_fieldInfos, List.mem_map, hfields, Told.ofField, ne_eq, List.filter_eq_nil_iff]
    simp only [decide_eq_true_eq, not_forall, not_not, exists_prop]
  options info hinfo := by
    obtain ⟨i, hi⟩ := List.mem_iff_getElem?.mp hinfo
    rw [getElem?_fieldInfos] at hi
    obtain ⟨f, hf, rfl⟩ := Option.map_eq_some_iff.mp hi
    have hfreqs := h.hasFreqs_eq (List.mem_of_getElem? hf)
    show f.options = _
    rw [FieldListing.options, hfreqs]
  ordered := by
    have hnames : (l.fieldInfos.map (·.name)).Pairwise fun name name' =>
        Bytes.ofString name < Bytes.ofString name' := by
      rw [map_name_fieldInfos, List.pairwise_map]
      exact List.pairwise_map.mp (h.keys_eq ▸ l.fields.sorted_keys)
    rwa [List.pairwise_map] at hnames
  numbered i info hinfo := by
    rw [getElem?_fieldInfos] at hinfo
    obtain ⟨f, -, rfl⟩ := Option.map_eq_some_iff.mp hinfo
    rfl

/-- **A text is refused just if a line of it is faulty or overfull**, and reading breaks off just if
the first such line is overfull; if there is none, the listing shows what the lines say. -/
theorem parse_exact (data : Bytes) :
    ((∃ fault, parse data = .error fault) ↔ Flawed [] (dataLines data)) ∧
      ((∃ number doc, parse data = .error ⟨number, .overflow doc⟩) ↔
        Overflows [] (dataLines data)) ∧
      ∀ l, parse data = .ok l → ∃ lines : Told,
        List.Forall₂ ListingLine.Spells (dataLines data) lines ∧ l.Shows lines := by
  obtain ⟨hflawed, hoverflows, hread⟩ := addLines_judges (data.splitOn 0x0A) 1 tells_nothing .nil
  rw [parse, splitAt_eq_splitOn]
  refine ⟨hflawed, hoverflows, fun l h => ?_⟩
  obtain ⟨lines, hlines, htells⟩ := hread l h
  exact ⟨lines, hlines, htells.shows⟩

/-- A listing in which a line without postings adds to a term of the line before, with a carriage
return, blanks, a remark and a plus sign, and no newline at the end. -/
def merged : Bytes := Bytes.ofString "b\tx\t 2:3,1, \r\n# a remark\n\nb\tx\t,\na\tx\t+2\nb\tx\t2"

/-- A text with a remark, blanks and a term in two lines shows what its lines tell. -/
theorem parse_exact_merged : ∃ l, parse merged = .ok l ∧ ∃ lines : Told,
    List.Forall₂ ListingLine.Spells (dataLines merged) lines ∧ l.Shows lines := by
  have hread : (parse merged).isOk = true := by decide +kernel
  cases h : parse merged with
  | error fault => rw [h] at hread; cases hread
  | ok l => exact ⟨l, rfl, (parse_exact merged).2.2 l h⟩

/-- A listing with more occurrences of a term in a document than 32 bits count. -/
def overfull : Bytes := Bytes.ofString "f\ta\t1:4294967295,1:2\n"

/-- What it says. -/
def overfullLine : ListingLine where
  field := "f"
  fieldKey := [0x66]
  term := [0x61]
  postings := [{ doc := 1, freq := some 4294967295 }, { doc := 1, freq := some 2 }]

/-- Reading breaks off at a line that is not faulty, since its sum takes more than 32 bits. -/
theorem parse_overflows : parse overfull = .error ⟨1, .overflow 1⟩ ∧
    dataLines overfull = [overfull.dropLast] ∧ ¬ Faulty [] overfull.dropLast ∧
      ListingLine.Spells overfull.dropLast overfullLine ∧
      Told.occurrences [overfullLine] "f" [0x61] 1 = 4294967297 := by
  have hlines : dataLines overfull = [overfull.dropLast] := by decide +kernel
  have hline : ListingLine.parse overfull.dropLast = .ok overfullLine := by decide +kernel
  have hspells := ListingLine.parse_eq_ok_iff.mp hline
  have hfine : ¬ Faulty [] overfull.dropLast := by
    rw [tells_nothing.faulty_iff .nil hspells]
    exact fun hbare => absurd hbare.1 (by decide)
  have hbroken : (match parse overfull with
      | .ok _ => none
      | .error fault => some fault) = some ⟨1, .overflow 1⟩ := by decide +kernel
  have htold : Told.occurrences [overfullLine] "f" [0x61] 1 = 4294967297 := by decide +kernel
  cases h : parse overfull with
  | ok l =>
    rw [h] at hbroken
    cases hbroken
  | error fault =>
    rw [h] at hbroken
    exact ⟨congrArg _ (Option.some.inj hbroken), hlines, hfine, hspells, htold⟩

end Listing

end Lexicon

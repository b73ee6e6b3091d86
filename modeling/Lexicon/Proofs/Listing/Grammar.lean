import Lexicon.Listing.Line
import Lexicon.Proofs.Pairing
import Lexicon.Proofs.Reading
import Lexicon.Proofs.Text.Utf8
import Mathlib.Tactic.Push

/-!
# The grammar of a listing

What numbers, postings and lines of a listing look like, said without the reader (`Spells`), and in
which ways a line can fail to be one (`ListingLine.Broken`). The reader takes a line just if the
grammar has it, and then for what the grammar makes of it.

> **`ListingLine.parse_eq_ok_iff`**, **`ListingLine.broken_iff`** — a line is read, or it is broken.
-/

namespace Lexicon

/-! ## Cutting -/

section

variable {α : Type} [DecidableEq α] {separator : α} {l front behind : List α}

/-- What stands between the separators. -/
theorem splitAt_eq_splitOn (l : List α) : splitAt separator l = l.splitOn separator := by
  induction l with
  | nil => exact (List.splitOn_nil separator).symm
  | cons a l ih =>
    have hcons := List.splitOnP_cons_eq_if_modifyHead (p := (· == separator)) a l
    rw [splitAt, ih, List.splitOn, List.splitOn, hcons]
    simp only [beq_iff_eq]
    split
    · rfl
    · cases hparts : List.splitOnP (· == separator) l with
      | nil => exact absurd hparts (List.splitOnP_ne_nil _ l)
      | cons => rfl

theorem cutAt?_cons (a : α) (l : List α) : cutAt? separator (a :: l) =
    if a = separator then some ([], l)
    else (cutAt? separator l).map fun cut => (a :: cut.1, cut.2) := by
  unfold cutAt?
  by_cases ha : a = separator
  · simp [ha]
  · rw [List.dropWhile_cons_of_pos (by simpa using ha),
      List.takeWhile_cons_of_pos (by simpa using ha), if_neg ha]
    cases l.dropWhile (· ≠ separator) <;> rfl

/-- What is cut is what stands on both sides of the first separator. -/
theorem cutAt?_eq_some_iff : cutAt? separator l = some (front, behind) ↔
    l = front ++ separator :: behind ∧ separator ∉ front := by
  induction l generalizing front with
  | nil =>
    refine ⟨nofun, fun h => ?_⟩
    simp at h
  | cons a l ih =>
    rw [cutAt?_cons]
    split
    next ha =>
      subst ha
      rw [Option.some.injEq, Prod.mk.injEq]
      constructor
      · rintro ⟨rfl, rfl⟩
        exact ⟨rfl, List.not_mem_nil⟩
      · rintro ⟨heq, hnot⟩
        cases front with
        | nil => exact ⟨rfl, (List.cons.inj heq).2⟩
        | cons b front => exact absurd (by simp [(List.cons.inj heq).1]) hnot
    next ha =>
      rw [Option.map_eq_some_iff]
      constructor
      · rintro ⟨⟨f, b⟩, hcut, heq⟩
        obtain ⟨rfl, rfl⟩ := Prod.mk.inj heq
        obtain ⟨rfl, hnot⟩ := ih.mp hcut
        exact ⟨rfl, fun hmem => (List.mem_cons.mp hmem).elim (fun h => ha h.symm) hnot⟩
      · rintro ⟨heq, hnot⟩
        cases front with
        | nil => exact absurd (List.cons.inj heq).1 ha
        | cons b front =>
          obtain ⟨rfl, hrest⟩ := List.cons.inj heq
          have hcut := ih.mpr ⟨hrest, fun hmem => hnot (List.mem_cons_of_mem _ hmem)⟩
          exact ⟨(front, behind), hcut, rfl⟩

/-- There is one way to cut. -/
theorem cut_inj {front' behind' : List α}
    (h : front ++ separator :: behind = front' ++ separator :: behind') (hnot : separator ∉ front)
    (hnot' : separator ∉ front') : front = front' ∧ behind = behind' := by
  have hcut : cutAt? separator (front ++ separator :: behind) = some (front, behind) :=
    cutAt?_eq_some_iff.mpr ⟨rfl, hnot⟩
  rw [cutAt?_eq_some_iff.mpr ⟨h, hnot'⟩] at hcut
  obtain ⟨hfront, hbehind⟩ := Prod.mk.inj (Option.some.inj hcut)
  exact ⟨hfront.symm, hbehind.symm⟩

/-- What has no separator cannot be cut. -/
theorem cutAt?_eq_none_iff : cutAt? separator l = none ↔ separator ∉ l := by
  constructor
  · intro hnone hmem
    obtain ⟨front, behind, rfl, hnot⟩ := List.eq_append_cons_of_mem hmem
    rw [cutAt?_eq_some_iff.mpr ⟨rfl, hnot⟩] at hnone
    cases hnone
  · intro hnot
    cases hcut : cutAt? separator l with
    | none => rfl
    | some cut =>
      rw [(cutAt?_eq_some_iff.mp hcut).1] at hnot
      simp at hnot

end

namespace Text.Whole

/-- The value of a row of decimal digits behind a number. -/
def value (n : Nat) (digits : List Char) : Nat :=
  digits.foldl (fun n c => 10 * n + (c.toNat - '0'.toNat)) n

/-- The characters spell the number: at least one decimal digit, after an optional plus sign. -/
def Spells (cs : List Char) (n : Nat) : Prop :=
  ∃ digits, (cs = digits ∨ cs = '+' :: digits) ∧ digits ≠ [] ∧ (∀ c ∈ digits, c.isDigit) ∧
    value 0 digits = n

/-- A number does not become smaller by further digits. -/
theorem le_value (n : Nat) (cs : List Char) : n ≤ value n cs := by
  induction cs generalizing n with
  | nil => exact Nat.le_refl n
  | cons c cs ih =>
    rw [value, List.foldl_cons]
    exact Nat.le_trans (by omega) (ih (10 * n + (c.toNat - '0'.toNat)))

/-- Digits are read just if there is nothing else and the number stays below the limit. -/
theorem digits_eq_ok_iff {limit : Nat} {cs : List Char} : ∀ {n m : Nat}, n < limit →
    (digits limit n cs = .ok m ↔ (∀ c ∈ cs, c.isDigit) ∧ value n cs = m ∧ m < limit) := by
  induction cs with
  | nil =>
    intro n m hn
    rw [digits, Except.ok.injEq]
    exact ⟨fun h => ⟨List.forall_mem_nil _, h, h ▸ hn⟩, fun h => h.2.1⟩
  | cons c cs ih =>
    intro n m hn
    rw [digits, List.forall_mem_cons]
    by_cases hdigit : c.isDigit
    · rw [if_pos hdigit]
      have hvalue : value n (c :: cs) = value (10 * n + (c.toNat - '0'.toNat)) cs := rfl
      dsimp only
      rw [hvalue]
      split
      next hlt => rw [ih hlt, and_iff_right hdigit]
      next hge =>
        have hle := le_value (10 * n + (c.toNat - '0'.toNat)) cs
        constructor
        · exact nofun
        · rintro ⟨-, rfl, hlt⟩
          exact absurd (Nat.lt_of_le_of_lt hle hlt) hge
    · rw [if_neg hdigit]
      exact ⟨nofun, fun h => absurd h.1.1 hdigit⟩

/-- **A number is read just if it is spelled and below the limit.** -/
theorem parse_eq_ok_iff {limit n : Nat} {cs : List Char} (hlimit : 0 < limit) :
    parse limit cs = .ok n ↔ Spells cs n ∧ n < limit := by
  have hplus : ¬ '+'.isDigit := by decide
  unfold parse
  split
  case h_1 =>
    refine ⟨nofun, ?_⟩
    rintro ⟨⟨digits, rfl | hcons, hne, -⟩, -⟩
    · exact absurd rfl hne
    · cases hcons
  case h_2 =>
    refine ⟨nofun, ?_⟩
    rintro ⟨⟨digits, rfl | hcons, hne, hdigits, -⟩, -⟩
    · exact absurd (hdigits '+' (by simp)) hplus
    · cases hcons
      exact absurd rfl hne
  case h_3 cs hmore =>
    rw [digits_eq_ok_iff hlimit]
    constructor
    · rintro ⟨hdigits, hvalue, hlt⟩
      exact ⟨⟨cs, .inr rfl, fun hnil => hmore (by rw [hnil]), hdigits, hvalue⟩, hlt⟩
    · rintro ⟨⟨digits, rfl | hcons, -, hdigits, hvalue⟩, hlt⟩
      · exact absurd (hdigits '+' (by simp)) hplus
      · cases hcons
        exact ⟨hdigits, hvalue, hlt⟩
  case h_4 hempty _ hsign =>
    rw [digits_eq_ok_iff hlimit]
    constructor
    · rintro ⟨hdigits, hvalue, hlt⟩
      exact ⟨⟨cs, .inl rfl, hempty, hdigits, hvalue⟩, hlt⟩
    · rintro ⟨⟨digits, rfl | rfl, -, hdigits, hvalue⟩, hlt⟩
      · exact ⟨hdigits, hvalue, hlt⟩
      · exact absurd rfl (hsign digits)

end Text.Whole

/-! ## Postings -/

namespace Posting

/-- The characters are a posting: a document, or a document, a colon and how often, which is not
never. -/
inductive Spells : List Char → Posting → Prop
  | named {cs : List Char} {doc : UInt32} (hdoc : Text.Whole.Spells cs doc.toNat) :
      Spells cs { doc }
  | counted {cs cs' : List Char} {doc freq : UInt32} (hdoc : Text.Whole.Spells cs doc.toNat)
      (hfreq : Text.Whole.Spells cs' freq.toNat) (hpos : freq ≠ 0) :
      Spells (cs ++ ':' :: cs') { doc, freq := some freq }

/-- A posting that is spelled has no frequency of zero. -/
theorem Spells.freq_ne_zero {cs : List Char} {p : Posting} (h : Spells cs p) :
    p.freq ≠ some 0 := by
  cases h with
  | named => exact nofun
  | counted _ _ hpos => exact fun hzero => hpos (Option.some.inj hzero)

/-- A number is spelled without a colon. -/
theorem colon_not_mem {cs : List Char} {n : Nat} (h : Text.Whole.Spells cs n) : ':' ∉ cs := by
  obtain ⟨digits, rfl | rfl, -, hdigits, -⟩ := h
  · exact fun hmem => absurd (hdigits ':' hmem) (by decide)
  · intro hmem
    rcases List.mem_cons.mp hmem with heq | hmem
    · cases heq
    · exact absurd (hdigits ':' hmem) (by decide)

/-- A number of 32 bits is read just if it is spelled. -/
theorem number_eq_ok_iff {cs : List Char} {n : UInt32} :
    Text.Whole.parse (2 ^ 32) cs = .ok n.toNat ↔ Text.Whole.Spells cs n.toNat := by
  rw [Text.Whole.parse_eq_ok_iff (by decide), and_iff_left n.toNat_lt]

/-- A number of 32 bits is read as it is spelled. -/
theorem exists_number {cs : List Char} {n : Nat} (h : Text.Whole.parse (2 ^ 32) cs = .ok n) :
    (UInt32.ofNat n).toNat = n ∧ Text.Whole.Spells cs n := by
  obtain ⟨hspells, hlt⟩ := (Text.Whole.parse_eq_ok_iff (by decide)).mp h
  exact ⟨UInt32.toNat_ofNat_of_lt' hlt, hspells⟩

/-- **A posting is read just if it is spelled.** -/
theorem parse_eq_ok_iff {cs : List Char} {p : Posting} : parse cs = .ok p ↔ Spells cs p := by
  constructor
  · intro h
    unfold parse at h
    dsimp only at h
    split at h
    next =>
      obtain ⟨doc, hdoc, hp⟩ := of_bind_eq_ok h
      split at hdoc <;> cases hdoc
      cases hp
      obtain ⟨hsame, hspells⟩ := exists_number ‹_›
      exact .named (hsame.symm ▸ hspells)
    next docText freqText hcut =>
      obtain ⟨rfl, -⟩ := cutAt?_eq_some_iff.mp hcut
      split at h
      next => cases h
      next => cases h
      next freq hpositive hfreq =>
        obtain ⟨doc, hdoc, hp⟩ := of_bind_eq_ok h
        split at hdoc <;> cases hdoc
        cases hp
        obtain ⟨hsame, hspells⟩ := exists_number ‹Text.Whole.parse _ docText = _›
        obtain ⟨hsame', hspells'⟩ := exists_number hfreq
        refine .counted (hsame.symm ▸ hspells) (hsame'.symm ▸ hspells') fun hzero => ?_
        rw [hzero] at hsame'
        exact hpositive hsame'.symm
  · rintro (@⟨_, doc, hdoc⟩ | @⟨cs, cs', doc, freq, hdoc, hfreq, hpos⟩)
    · unfold parse
      rw [cutAt?_eq_none_iff.mpr (colon_not_mem hdoc)]
      dsimp only
      rw [number_eq_ok_iff.mpr hdoc]
      show Except.ok _ = _
      rw [UInt32.ofNat_toNat]
    · unfold parse
      rw [cutAt?_eq_some_iff.mpr ⟨rfl, colon_not_mem hdoc⟩]
      dsimp only
      rw [number_eq_ok_iff.mpr hfreq, number_eq_ok_iff.mpr hdoc]
      obtain ⟨n, hn⟩ := Nat.exists_eq_succ_of_ne_zero fun hzero => hpos (UInt32.toNat_inj.mp hzero)
      have hsame : UInt32.ofNat (n + 1) = freq := by
        rw [← Nat.succ_eq_add_one, ← hn, UInt32.ofNat_toNat]
      rw [hn]
      show Except.ok _ = Except.ok _
      rw [UInt32.ofNat_toNat, hsame]

/-- What stands between the commas, without the blanks around it, where there is anything else. -/
def written (text : String) : List (List Char) :=
  ((text.toList.splitOn ',').map Text.trim).filter (!·.isEmpty)

/-- All postings are read just if each of them is spelled. -/
theorem readAll_eq_iff {css : List (List Char)} {ps : List Posting} :
    readAll css = (ps, none) ↔ List.Forall₂ Spells css ps := by
  induction css generalizing ps with
  | nil =>
    rw [readAll, List.forall₂_nil_left_iff, Prod.mk.injEq, and_iff_left rfl]
    exact eq_comm
  | cons cs css ih =>
    rw [List.forall₂_cons_left_iff, readAll]
    constructor
    · intro h
      split at h
      next => cases h
      next p hp =>
        obtain ⟨hps, hnone⟩ := Prod.mk.inj h
        exact ⟨p, _, parse_eq_ok_iff.mp hp, ih.mp (Prod.ext rfl hnone), hps.symm⟩
    · intro h
      obtain ⟨p, ps', hp, hps, rfl⟩ := h
      rw [parse_eq_ok_iff.mpr hp, ih.mpr hps]

/-- What is read of postings is all that is spelled before the first that is not. -/
theorem prefix_readAll_iff {css : List (List Char)} {ps : List Posting} :
    ps <+: (readAll css).1 ↔ ∃ read, read <+: css ∧ List.Forall₂ Spells read ps := by
  induction css generalizing ps with
  | nil =>
    rw [readAll, List.prefix_nil]
    constructor
    · intro h
      exact ⟨[], List.prefix_rfl, h ▸ .nil⟩
    · intro h
      obtain ⟨read, hread, hps⟩ := h
      rw [List.prefix_nil.mp hread] at hps
      exact List.forall₂_nil_left_iff.mp hps
  | cons cs css ih =>
    cases ps with
    | nil => exact iff_of_true List.nil_prefix ⟨[], List.nil_prefix, .nil⟩
    | cons q ps =>
      rw [readAll]
      constructor
      · intro h
        split at h
        next => cases List.prefix_nil.mp h
        next p hp =>
          obtain ⟨rfl, hps⟩ := List.cons_prefix_cons.mp h
          obtain ⟨read, hread, hspells⟩ := ih.mp hps
          exact ⟨cs :: read, List.cons_prefix_cons.mpr ⟨rfl, hread⟩,
            .cons (parse_eq_ok_iff.mp hp) hspells⟩
      · intro h
        obtain ⟨read, hread, hspells⟩ := h
        obtain ⟨cs', read, hq, hps, rfl⟩ := List.forall₂_cons_right_iff.mp hspells
        obtain ⟨rfl, hrest⟩ := List.cons_prefix_cons.mp hread
        rw [parse_eq_ok_iff.mpr hq]
        exact List.cons_prefix_cons.mpr ⟨rfl, ih.mpr ⟨read, hrest, hps⟩⟩

/-- Postings are read from the parts between the commas. -/
theorem parseAll_eq (text : String) : parseAll text = readAll (written text) := by
  rw [parseAll, written, splitAt_eq_splitOn]

/-- Nothing is counted while postings are read. -/
theorem parse_ne_overflow {cs : List Char} {fault : LineFault} (h : parse cs = .error fault)
    (doc : UInt32) : fault ≠ .overflow doc := by
  intro heq
  subst heq
  unfold parse at h
  dsimp only at h
  split at h
  next =>
    split at h
    next => cases h
    next => cases h
  next =>
    split at h
    next => cases h
    next => cases h
    next =>
      split at h
      next => cases h
      next => cases h

/-- Reading postings by itself adds nothing up. -/
theorem readAll_ne_overflow {css : List (List Char)} (doc : UInt32) :
    (readAll css).2 ≠ some (.overflow doc) := by
  induction css with
  | nil => exact nofun
  | cons cs css ih =>
    rw [readAll]
    split
    next hfault => exact fun h => parse_ne_overflow hfault doc (Option.some.inj h)
    next => exact ih

end Posting

/-! ## Lines -/

namespace ListingLine

/-- The bytes are a line: the name of a field, a term and postings, with tabs between them. -/
inductive Spells : Bytes → ListingLine → Prop
  | line {field text : String} {term : Bytes} {postings : List Posting}
      (hname : tab ∉ Bytes.ofString field) (hfield : field ≠ "") (hterm : tab ∉ term)
      (hpostings : List.Forall₂ Posting.Spells (Posting.written text) postings) :
      Spells (Bytes.ofString field ++ tab :: (term ++ tab :: Bytes.ofString text))
        { field, fieldKey := Bytes.ofString field, term, postings }

/-- The ways in which bytes can fail to be a line. -/
inductive Broken : Bytes → Prop
  | tabs {bytes : Bytes} (h : bytes.count tab < 2) : Broken bytes
  | empty {rest : Bytes} : Broken (tab :: rest)
  | name {name rest : Bytes} (hname : tab ∉ name) (h : ∀ text, name ≠ Bytes.ofString text) :
      Broken (name ++ tab :: rest)
  | postings {name term written : Bytes} (hname : tab ∉ name) (hterm : tab ∉ term)
      (h : ∀ text, written ≠ Bytes.ofString text) : Broken (name ++ tab :: (term ++ tab :: written))
  | posting {name term : Bytes} {text : String} {cs : List Char} (hname : tab ∉ name)
      (hterm : tab ∉ term) (hwritten : cs ∈ Posting.written text) (h : ∀ p, ¬ Posting.Spells cs p) :
      Broken (name ++ tab :: (term ++ tab :: Bytes.ofString text))

/-- The bytes begin as a line does: its parts are there, and its postings are spelled up to some
place. -/
inductive Starts : Bytes → ListingLine → Prop
  | line {field text : String} {term : Bytes} {read : List (List Char)} {postings : List Posting}
      (hname : tab ∉ Bytes.ofString field) (hfield : field ≠ "") (hterm : tab ∉ term)
      (hread : read <+: Posting.written text)
      (hpostings : List.Forall₂ Posting.Spells read postings) :
      Starts (Bytes.ofString field ++ tab :: (term ++ tab :: Bytes.ofString text))
        { field, fieldKey := Bytes.ofString field, term, postings }

/-- What bytes say as far as they can be read. -/
def said (bytes : Bytes) : Option ListingLine :=
  match parse bytes with
  | .ok line => some line
  | .error unread => unread.said

/-- Bytes with the parts of a line say the postings that can be read, and are a line if these are
all. -/
theorem parse_parts {field text : String} {term : Bytes} (hname : tab ∉ Bytes.ofString field)
    (hfield : field ≠ "") (hterm : tab ∉ term) :
    parse (Bytes.ofString field ++ tab :: (term ++ tab :: Bytes.ofString text)) =
      let line := ⟨field, Bytes.ofString field, term, (Posting.parseAll text).1⟩
      match (Posting.parseAll text).2 with
      | none => .ok line
      | some fault => .error { fault, said := some line } := by
  unfold parse
  rw [cutAt?_eq_some_iff.mpr ⟨rfl, hname⟩]
  dsimp only
  rw [Text.Utf8.decode_eq_ok_iff.mpr rfl]
  dsimp only
  rw [if_neg (by simpa using hfield), cutAt?_eq_some_iff.mpr ⟨rfl, hterm⟩]
  dsimp only
  rw [Text.Utf8.decode_eq_ok_iff.mpr rfl]
  rfl

/-- What a line says are its field, its term and the postings up to a fault. -/
theorem said_parts {field text : String} {term : Bytes} (hname : tab ∉ Bytes.ofString field)
    (hfield : field ≠ "") (hterm : tab ∉ term) :
    said (Bytes.ofString field ++ tab :: (term ++ tab :: Bytes.ofString text)) =
      some ⟨field, Bytes.ofString field, term, (Posting.parseAll text).1⟩ := by
  rw [said, parse_parts hname hfield hterm]
  cases hfault : (Posting.parseAll text).2 with
  | none => rfl
  | some fault => rfl

/-- Bytes have the parts of a line, or they say nothing at all. -/
theorem parts_or_fault (bytes : Bytes) :
    (∃ (field text : String) (term : Bytes), tab ∉ Bytes.ofString field ∧ field ≠ "" ∧ tab ∉ term ∧
      bytes = Bytes.ofString field ++ tab :: (term ++ tab :: Bytes.ofString text)) ∨
    ∃ fault, parse bytes = .error { fault } ∧ ∀ doc, fault ≠ .overflow doc := by
  unfold parse
  cases hcut : cutAt? tab bytes with
  | none => exact .inr ⟨.noTab, rfl, nofun⟩
  | some cut =>
  obtain ⟨fieldKey, rest⟩ := cut
  cases hfield : Text.Utf8.decode fieldKey with
  | error fault => exact .inr ⟨.fieldNotText fault, by simp only [hfield]; rfl, nofun⟩
  | ok field =>
  by_cases hempty : field.isEmpty = true
  · exact .inr ⟨.emptyField, by simp only [hfield, hempty]; rfl, nofun⟩
  cases hterm : cutAt? tab rest with
  | none => exact .inr ⟨.noSecondTab, by simp only [hfield, hempty, hterm]; rfl, nofun⟩
  | some cut =>
  obtain ⟨term, written⟩ := cut
  cases htext : Text.Utf8.decode written with
  | error fault =>
    exact .inr ⟨.postingsNotText fault, by simp only [hfield, hempty, hterm, htext]; rfl, nofun⟩
  | ok text =>
    obtain ⟨rfl, hname⟩ := cutAt?_eq_some_iff.mp hcut
    obtain ⟨rfl, htabless⟩ := cutAt?_eq_some_iff.mp hterm
    obtain rfl := Text.Utf8.decode_eq_ok_iff.mp hfield
    obtain rfl := Text.Utf8.decode_eq_ok_iff.mp htext
    exact .inl ⟨field, text, term, hname, fun hnil => hempty (by rw [hnil]; rfl), htabless, rfl⟩

/-- Bytes that say anything have the parts of a line. -/
theorem exists_parts {bytes : Bytes} {line : ListingLine} (h : said bytes = some line) :
    ∃ (field text : String) (term : Bytes), tab ∉ Bytes.ofString field ∧ field ≠ "" ∧ tab ∉ term ∧
      bytes = Bytes.ofString field ++ tab :: (term ++ tab :: Bytes.ofString text) ∧
      line = ⟨field, Bytes.ofString field, term, (Posting.parseAll text).1⟩ := by
  obtain ⟨field, text, term, hname, hfield, hterm, rfl⟩ | ⟨fault, hfault, -⟩ := parts_or_fault bytes
  · rw [said_parts hname hfield hterm] at h
    exact ⟨field, text, term, hname, hfield, hterm, rfl, (Option.some.inj h).symm⟩
  · rw [said, hfault] at h
    cases h

/-- Nothing is counted while a line is read. -/
theorem parse_ne_overflow {bytes : Bytes} {unread : UnreadLine} (h : parse bytes = .error unread)
    (doc : UInt32) : unread.fault ≠ .overflow doc := by
  obtain ⟨field, text, term, hname, hfield, hterm, rfl⟩ | ⟨fault, hfault, hne⟩ :=
    parts_or_fault bytes
  · rw [parse_parts hname hfield hterm, Posting.parseAll_eq] at h
    dsimp only at h
    split at h
    next => cases h
    next fault hfault =>
      cases h
      exact fun heq => Posting.readAll_ne_overflow doc (hfault.trans (congrArg some heq))
  · rw [hfault] at h
    cases h
    exact hne doc

/-- **A line is read just if it is spelled.** -/
theorem parse_eq_ok_iff {bytes : Bytes} {line : ListingLine} :
    parse bytes = .ok line ↔ Spells bytes line := by
  constructor
  · intro h
    have hsaid : said bytes = some line := by rw [said, h]
    obtain ⟨field, text, term, hname, hfield, hterm, rfl, rfl⟩ := exists_parts hsaid
    rw [parse_parts hname hfield hterm] at h
    dsimp only at h
    split at h
    next hnone =>
      refine .line hname hfield hterm (Posting.readAll_eq_iff.mp ?_)
      rw [← Posting.parseAll_eq]
      exact Prod.ext rfl hnone
    next => cases h
  · intro h
    obtain ⟨hname, hfield, hterm, hpostings⟩ := h
    rw [parse_parts hname hfield hterm, Posting.parseAll_eq,
      Posting.readAll_eq_iff.mpr hpostings]

/-- **Bytes begin as a line does just if what is read of them does.** -/
theorem starts_iff {bytes : Bytes} {line : ListingLine} : Starts bytes line ↔
    ∃ full, said bytes = some full ∧ line.postings <+: full.postings ∧
      line = { full with postings := line.postings } := by
  constructor
  · intro h
    obtain ⟨hname, hfield, hterm, hread, hpostings⟩ := h
    have hbegins := Posting.prefix_readAll_iff.mpr ⟨_, hread, hpostings⟩
    rw [← Posting.parseAll_eq] at hbegins
    exact ⟨_, said_parts hname hfield hterm, hbegins, rfl⟩
  · intro h
    obtain ⟨full, hfull, hbegins, hline⟩ := h
    obtain ⟨field, text, term, hname, hfield, hterm, rfl, rfl⟩ := exists_parts hfull
    rw [Posting.parseAll_eq] at hbegins
    obtain ⟨read, hread, hpostings⟩ := Posting.prefix_readAll_iff.mp hbegins
    rw [hline]
    exact .line hname hfield hterm hread hpostings

/-- A line says one thing. -/
theorem Spells.unique {bytes : Bytes} {line line' : ListingLine} (h : Spells bytes line)
    (h' : Spells bytes line') : line = line' := by
  have heq := (parse_eq_ok_iff.mpr h).symm.trans (parse_eq_ok_iff.mpr h')
  exact Except.ok.inj heq

/-- A broken line is not spelled by anything. -/
theorem Broken.not_spells {bytes : Bytes} {line : ListingLine} (hbroken : Broken bytes) :
    ¬ Spells bytes line := by
  intro h
  obtain @⟨field, text, term, postings, hname, hfield, hterm, hpostings⟩ := h
  generalize hbytes : Bytes.ofString field ++ tab :: (term ++ tab :: Bytes.ofString text) = bytes
    at hbroken
  cases hbroken with
  | tabs hcount =>
    subst hbytes
    simp only [List.count_append, List.count_cons_self] at hcount
    omega
  | empty =>
    have hempty := (cut_inj hbytes hname List.not_mem_nil).1
    exact hfield (Bytes.ofString_inj (hempty.trans Bytes.ofString_empty.symm))
  | name hname' hnot => exact hnot field (cut_inj hbytes hname hname').1.symm
  | postings hname' hterm' hnot =>
    have hrest := (cut_inj hbytes hname hname').2
    exact hnot text (cut_inj hrest hterm hterm').2.symm
  | posting hname' hterm' hwritten hnot =>
    have hrest := (cut_inj hbytes hname hname').2
    obtain rfl := Bytes.ofString_inj (cut_inj hrest hterm hterm').2
    obtain ⟨p, -, hp⟩ := hpostings.exists_right hwritten
    exact hnot p hp

/-- **A line is spelled, or it is broken.** -/
theorem broken_iff {bytes : Bytes} : Broken bytes ↔ ∀ line, ¬ Spells bytes line := by
  refine ⟨fun h line => h.not_spells, fun hnone => ?_⟩
  cases hcut : cutAt? tab bytes with
  | none =>
    refine .tabs ?_
    rw [List.count_eq_zero.mpr (cutAt?_eq_none_iff.mp hcut)]
    decide
  | some cut =>
  obtain ⟨name, rest⟩ := cut
  obtain ⟨rfl, hname⟩ := cutAt?_eq_some_iff.mp hcut
  by_cases hempty : name = []
  · exact hempty ▸ .empty
  by_cases hfield : ∃ field, name = Bytes.ofString field
  case neg => exact .name hname fun field h => hfield ⟨field, h⟩
  obtain ⟨field, rfl⟩ := hfield
  cases hcut' : cutAt? tab rest with
  | none =>
    refine .tabs ?_
    rw [List.count_append, List.count_cons_self, List.count_eq_zero.mpr hname,
      List.count_eq_zero.mpr (cutAt?_eq_none_iff.mp hcut')]
    decide
  | some cut =>
  obtain ⟨term, written⟩ := cut
  obtain ⟨rfl, hterm⟩ := cutAt?_eq_some_iff.mp hcut'
  by_cases htext : ∃ text, written = Bytes.ofString text
  case neg => exact .postings hname hterm fun text h => htext ⟨text, h⟩
  obtain ⟨text, rfl⟩ := htext
  by_cases hpostings : ∀ cs ∈ Posting.written text, ∃ p, Posting.Spells cs p
  · obtain ⟨postings, hall⟩ := exists_forall₂ hpostings
    refine absurd (Spells.line hname (fun hnil => hempty ?_) hterm hall) (hnone _)
    rw [hnil, Bytes.ofString_empty]
  · push Not at hpostings
    obtain ⟨cs, hwritten, hnot⟩ := hpostings
    exact .posting hname hterm hwritten hnot

end ListingLine

end Lexicon

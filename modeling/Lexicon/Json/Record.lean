import Lexicon.Json.Skip

/-!
# Reading lists, records and choices

A record is read field by field into a value that holds the defaults (`Reading.record`). Its fields
come in any order under their names, each at most once, with others among them; or as a list in
their own order, of which the end may be missing. Only a field without a default has to be there.
-/

namespace Lexicon.Json

/-- A field of a record that is read into a `σ`. -/
structure Field (σ : Type) where
  name : String
  /-- Whether there is no default. -/
  required : Bool := true
  /-- Reads the value of the field. -/
  read : σ → Reading σ

namespace Reading

/-- Reads between brackets. The closing bracket is read in any case, so that a stop without a place
is placed behind it. -/
def enclosed {α : Type} (body : Reading α) (close : Reading Unit) : Reading α := placed fun c =>
  match body c with
  | .ok a c =>
    match close c with
    | .ok _ c => .ok a c
    | .error s c => .error s c
  | .error s c =>
    match close c with
    | .ok _ c => .error s c
    | .error _ c => .error s c

/-! ## Lists -/

/-- The end of a list whose wanted elements were read. -/
def endList : Reading Unit := do
  match ← token with
  | some ']' => drop
  | some ',' =>
    drop
    stopAtNext (if (← token) = some ']' then .trailingComma else .trailing)
  | some _ => stopAtNext .trailing
  | none => stopAtNext (.ends .list)

/-- Whether another element follows. -/
def element (first : Bool) : Reading Bool := do
  match ← token with
  | none => stopAtNext (.ends .list)
  | some ']' => return false
  | some c =>
    if first then return true
    if c ≠ ',' then stopAtNext .expectedListEnd
    drop
    match ← token with
    | none => stopAtNext (.ends .value)
    | some ']' => stopAtNext .trailingComma
    | some _ => return true

/-- All further elements, of which there are fewer than `steps`. -/
def elements {α : Type} (read : Reading α) : Nat → Bool → Reading (List α)
  | 0, _ => stop (.ends .list)
  | steps + 1, first => do
    if ← element first then
      let a ← read
      return a :: (← elements read steps false)
    else return []

/-- `count` elements, `done` having been read. -/
def exactly {α : Type} (read : Reading α) (wanted : String) : Nat → Nat → Reading (List α)
  | _, 0 => pure []
  | done, count + 1 => do
    if ← element (done = 0) then
      let a ← read
      return a :: (← exactly read wanted (done + 1) count)
    else refuse (.wrongLength done wanted)

/-- What stands between the brackets of a list. -/
def listOf {α : Type} (body : Reading α) (wanted : String) : Reading α := do
  match ← token with
  | none => stopAtNext (.ends .value)
  | some '[' => do drop; enclosed body endList
  | some _ => placed (unwanted wanted)

/-- A list of any length. -/
def list {α : Type} (read : Reading α) : Reading (List α) := do
  listOf (elements read ((← get).remaining + 1) true) "a sequence"

/-- A list of `count` elements. -/
def tuple {α : Type} (read : Reading α) (count : Nat) : Reading (List α) :=
  let wanted := s!"an array of length {count}"
  listOf (exactly read wanted 0 count) wanted

/-! ## Records -/

/-- The end of a record. -/
def endRecord : Reading Unit := do
  match ← token with
  | some '}' => drop
  | some ',' => stopAtNext .trailingComma
  | some _ => stopAtNext .trailing
  | none => stopAtNext (.ends .record)

/-- The next key, if there is one. -/
def key (first : Bool) : Reading (Option String) := do
  let quotedKey : Reading (Option String) := do
    match ← token with
    | none => stopAtNext (.ends .value)
    | some '"' => do drop; return some (← quoted)
    | some '}' => stopAtNext .trailingComma
    | some _ => stopAtNext .keyNotText
  match ← token with
  | none => stopAtNext (.ends .record)
  | some '}' => return none
  | some c =>
    if first then quotedKey
    else if c = ',' then do drop; quotedKey
    else stopAtNext .expectedRecordEnd

/-- Fields under their names, of which there are fewer than `steps`; `seen` are the names before.
All names are given back. -/
def named {σ : Type} (fields : List (Field σ)) :
    Nat → List String → σ → Reading (σ × List String)
  | 0, _, _ => stop (.ends .record)
  | steps + 1, seen, s => do
    match ← key seen.isEmpty with
    | none => return (s, seen)
    | some name =>
      match fields.find? (·.name = name) with
      | some field =>
        if seen.contains name then refuse (.duplicate name)
        colon
        let s ← field.read s
        named fields steps (name :: seen) s
      | none =>
        colon
        skip
        named fields steps (name :: seen) s

/-- The fields in their order, of which `done` were before. -/
def positional {σ : Type} (wanted : String) : Nat → List (Field σ) → σ → Reading σ
  | _, [], s => return s
  | done, field :: rest, s => do
    if ← element (done = 0) then positional wanted (done + 1) rest (← field.read s)
    else if field.required then refuse (.wrongLength done wanted)
    else positional wanted (done + 1) rest s

/-- A record: `start` holds the defaults, `wanted` names such records. -/
def record {σ : Type} (wanted : String) (start : σ) (fields : List (Field σ)) : Reading σ := do
  match ← token with
  | none => stopAtNext (.ends .value)
  | some '[' =>
    drop
    enclosed (positional s!"{wanted} with {fields.length} elements" 0 fields start) endList
  | some '{' =>
    drop
    let body : Reading σ := do
      let (s, seen) ← named fields ((← get).remaining + 1) [] start
      match fields.find? fun f => f.required && !seen.contains f.name with
      | some f => refuse (.missing f.name)
      | none => return s
    enclosed body endRecord
  | some _ => placed (unwanted wanted)

/-! ## Choices -/

/-- One of several things by its name; the name may also be the only key of a record that holds
null. -/
def choice {α : Type} (choices : List (String × α)) : Reading α := do
  let name : Reading α := placed do
    let name ← text "variant identifier"
    match choices.lookup name with
    | some a => return a
    | none => refuse (.unknownChoice name (choices.map Prod.fst))
  match ← token with
  | none => stopAtNext (.ends .value)
  | some '"' => name
  | some '{' =>
    drop
    match ← token with
    | none => stopAtNext (.ends .record)
    | some '"' => pure ()
    | some '}' => stopAtNext .expectedValue
    | some _ => stopAtNext .keyNotText
    let a ← name
    colon
    null
    match ← token with
    | some '}' => do drop; return a
    | some _ => stop .expectedValue
    | none => stop (.ends .record)
  | some _ => stopAtNext .expectedValue

end Reading

/-! ## Whole texts -/

/-- Line and column of the place behind `before`. -/
def place (before : Bytes) : Nat × Nat :=
  before.foldl (fun (line, column) (b : UInt8) =>
    if b = 0x0A then (line + 1, 0) else (line, column + 1)) (1, 0)

/-- Reads a whole text, around which only blanks may stand. -/
def read {α : Type} (r : Reading α) (text : String) : Except Misread α :=
  let data := Bytes.ofString text
  let whole : Reading α := do
    let a ← r
    if (← Reading.token).isSome then Reading.stopAtNext .trailing
    return a
  match whole (.start data) with
  | .ok a _ => .ok a
  | .error s c =>
    let (line, column) := place (data.take (s.place.getD c.position))
    .error ⟨s.fault, line, column⟩

end Lexicon.Json

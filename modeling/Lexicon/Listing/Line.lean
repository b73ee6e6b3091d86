import Lexicon.Text.Blank
import Lexicon.Text.Utf8
import Lexicon.Text.Whole

/-!
# Lines of a listing

A line of a listing names a field, a term and the documents that hold it:

    field<TAB>term<TAB>posting,posting,…

A posting is the number of a document, or that and how often the term occurs in it, with a colon
between them. Blanks around postings count for nothing, nor do postings that are blank. The term is
any bytes without tabs; field and postings are text.
-/

namespace Lexicon

/-- A document that holds a term, and how often if that is written. -/
structure Posting where
  doc : UInt32
  freq : Option UInt32 := none
  deriving DecidableEq, Repr

/-- What a line says. -/
structure ListingLine where
  field : String
  /-- The bytes of the field. -/
  fieldKey : Bytes
  term : Bytes
  postings : List Posting
  deriving DecidableEq, Repr

/-- Why a line says nothing. -/
inductive LineFault where
  | noTab
  | fieldNotText (fault : Text.Utf8.Fault)
  | emptyField
  | noSecondTab
  | postingsNotText (fault : Text.Utf8.Fault)
  | badFrequency (posting : String) (fault : Text.Whole.Fault)
  | zeroFrequency (posting : String)
  | badDocument (posting : String) (fault : Text.Whole.Fault)
  /-- The term has no documents, neither in this line nor in one before. -/
  | noDocuments (term : Bytes)
  /-- The term occurs in the document more often than 32 bits count: the addition is broken off, and
  the program with it. -/
  | overflow (doc : UInt32)
  deriving DecidableEq, Repr

/-- The fault and then its cause, if it has one. -/
def LineFault.messages : LineFault → List String
  | .noTab => ["expected field<TAB>term<TAB>postings"]
  | .fieldNotText fault => ["field name is not UTF-8", fault.message]
  | .emptyField => ["empty field name"]
  | .noSecondTab => ["missing postings after term"]
  | .postingsNotText fault => ["postings are not UTF-8", fault.message]
  | .badFrequency posting fault => [s!"bad frequency in '{posting}'", fault.message]
  | .zeroFrequency posting => [s!"frequency must be positive in '{posting}'"]
  | .badDocument posting fault => [s!"bad document id in '{posting}'", fault.message]
  | .noDocuments term => ["term '" ++ Text.Utf8.lossy term ++ "' has no documents"]
  | .overflow _ => ["attempt to add with overflow"]

/-- The parts of a list between separators. -/
def splitAt {α : Type} [DecidableEq α] (separator : α) : List α → List (List α)
  | [] => [[]]
  | a :: rest =>
    if a = separator then [] :: splitAt separator rest
    else
      match splitAt separator rest with
      | [] => [[a]]
      | part :: parts => (a :: part) :: parts

/-- What is before the first separator and what is behind it, if there is one. -/
def cutAt? {α : Type} [DecidableEq α] (separator : α) (l : List α) : Option (List α × List α) :=
  match l.dropWhile (· ≠ separator) with
  | [] => none
  | _ :: behind => some (l.takeWhile (· ≠ separator), behind)

namespace Posting

/-- Reads a posting without blanks around it: the frequency first, which is positive, then the
document. -/
def parse (cs : List Char) : Except LineFault Posting := do
  let text := String.ofList cs
  let number := Text.Whole.parse (2 ^ 32)
  let document (cs : List Char) : Except LineFault UInt32 :=
    match number cs with
    | .ok n => .ok (UInt32.ofNat n)
    | .error fault => .error (.badDocument text fault)
  match cutAt? ':' cs with
  | none => return { doc := ← document cs }
  | some (doc, freq) =>
    match number freq with
    | .error fault => throw (.badFrequency text fault)
    | .ok 0 => throw (.zeroFrequency text)
    | .ok freq => return { doc := ← document doc, freq := some (UInt32.ofNat freq) }

/-- Reads postings up to the first that is faulty, with its fault. -/
def readAll : List (List Char) → List Posting × Option LineFault
  | [] => ([], none)
  | cs :: rest =>
    match parse cs with
    | .error fault => ([], some fault)
    | .ok p => (p :: (readAll rest).1, (readAll rest).2)

/-- Reads the postings of a line up to the first that is faulty, with its fault. -/
def parseAll (text : String) : List Posting × Option LineFault :=
  readAll (((splitAt ',' text.toList).map Text.trim).filter (!·.isEmpty))

end Posting

/-- Why a line cannot be read, and what it says up to there if its postings are reached. -/
structure UnreadLine where
  fault : LineFault
  said : Option ListingLine := none
  deriving DecidableEq, Repr

namespace ListingLine

/-- The byte between the parts of a line. -/
def tab : UInt8 := 0x09

/-- Reads a line. -/
def parse (line : Bytes) : Except UnreadLine ListingLine := do
  match cutAt? tab line with
  | none => throw { fault := .noTab }
  | some (fieldKey, rest) =>
    match Text.Utf8.decode fieldKey with
    | .error fault => throw { fault := .fieldNotText fault }
    | .ok field =>
      if field.isEmpty then throw { fault := .emptyField }
      match cutAt? tab rest with
      | none => throw { fault := .noSecondTab }
      | some (term, written) =>
        match Text.Utf8.decode written with
        | .error fault => throw { fault := .postingsNotText fault }
        | .ok text =>
          let (postings, fault) := Posting.parseAll text
          let line := { field, fieldKey, term, postings }
          match fault with
          | none => return line
          | some fault => throw { fault, said := some line }

end ListingLine

end Lexicon

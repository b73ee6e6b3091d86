import Lexicon.Number.Decimal
import Lexicon.Text.Quoted

/-!
# What can be wrong with a JSON text

A text can fail to be JSON, or be JSON and not hold what is wanted of it. Either fault has a place:
a line and the number of bytes of that line that were read.
-/

namespace Lexicon.Json

/-- What stands where something else is wanted. -/
inductive Found where
  | null
  | truth (b : Bool)
  | natural (n : Nat)
  /-- The number -`n`, below zero. -/
  | negative (n : Nat)
  /-- Any other number. -/
  | real (isNegative : Bool) (magnitude : Dyadic)
  | text (s : String)
  | list
  | record
  deriving DecidableEq, Repr

def Found.message : Found → String
  | .null => "null"
  | .truth b => s!"boolean `{b}`"
  | .natural n => s!"integer `{n}`"
  | .negative n => s!"integer `-{n}`"
  | .real isNegative magnitude =>
    let sign := if isNegative then "-" else ""
    "floating point `" ++ sign ++ (Decimal.shortest magnitude).text ++ "`"
  | .text s => "string " ++ Text.quoted s
  | .list => "sequence"
  | .record => "map"

/-- What a text can end inside of. -/
inductive Part where
  | list
  | record
  | text
  | value
  deriving DecidableEq, Repr

def Part.message : Part → String
  | .list => "a list"
  | .record => "an object"
  | .text => "a string"
  | .value => "a value"

inductive Fault where
  | ends (inside : Part)
  | expectedColon
  | expectedListEnd
  | expectedRecordEnd
  | expectedWord
  | expectedValue
  | badEscape
  | badNumber
  | outOfRange
  | control
  | keyNotText
  | loneSurrogate
  | cutEscape
  | trailingComma
  | trailing
  /-- A value of another kind. -/
  | wrongKind (found : Found) (wanted : String)
  /-- A value of the right kind that is not allowed. -/
  | wrongValue (found : Found) (wanted : String)
  | missing (name : String)
  | duplicate (name : String)
  | wrongLength (length : Nat) (wanted : String)
  | unknownChoice (name : String) (choices : List String)
  deriving DecidableEq, Repr

def Fault.message : Fault → String
  | .ends inside => "EOF while parsing " ++ inside.message
  | .expectedColon => "expected `:`"
  | .expectedListEnd => "expected `,` or `]`"
  | .expectedRecordEnd => "expected `,` or `\x7d`"
  | .expectedWord => "expected ident"
  | .expectedValue => "expected value"
  | .badEscape => "invalid escape"
  | .badNumber => "invalid number"
  | .outOfRange => "number out of range"
  | .control => "control character (\\u0000-\\u001F) found while parsing a string"
  | .keyNotText => "key must be a string"
  | .loneSurrogate => "lone leading surrogate in hex escape"
  | .cutEscape => "unexpected end of hex escape"
  | .trailingComma => "trailing comma"
  | .trailing => "trailing characters"
  | .wrongKind found wanted => s!"invalid type: {found.message}, expected {wanted}"
  | .wrongValue found wanted => s!"invalid value: {found.message}, expected {wanted}"
  | .missing name => s!"missing field `{name}`"
  | .duplicate name => s!"duplicate field `{name}`"
  | .wrongLength length wanted => s!"invalid length {length}, expected {wanted}"
  | .unknownChoice name choices =>
    s!"unknown variant `{name}`, expected one of "
      ++ ", ".intercalate (choices.map fun c => s!"`{c}`")

/-- A fault and its place. -/
structure Misread where
  fault : Fault
  line : Nat
  /-- Number of bytes of the line that were read. -/
  column : Nat
  deriving DecidableEq, Repr

def Misread.message (m : Misread) : String :=
  s!"{m.fault.message} at line {m.line} column {m.column}"

end Lexicon.Json

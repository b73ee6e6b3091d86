import Lexicon.Number.Decimal
import Lexicon.Text.Hex

/-!
# Printing JSON

Values are printed over several lines, each level two blanks further in; a list or a record without
members stays on one line. A number with a fraction is printed in the fewest digits that give it.
-/

namespace Lexicon.Json

/-- A JSON value. The fields of a record keep their order. -/
inductive Value where
  | null
  | natural (n : Nat)
  | real (x : Dyadic)
  | text (s : String)
  | list (elements : List Value)
  | record (fields : List (String × Value))

namespace Value

/-- How a character stands in a text. -/
def escape (c : Char) : List Char :=
  if c = '"' then ['\\', '"']
  else if c = '\\' then ['\\', '\\']
  else if c = '\x08' then ['\\', 'b']
  else if c = '\x0c' then ['\\', 'f']
  else if c = '\n' then ['\\', 'n']
  else if c = '\r' then ['\\', 'r']
  else if c = '\t' then ['\\', 't']
  else if c < ' ' then ['\\', 'u'] ++ (Text.Hex.padded 4 c.toNat).toList
  else [c]

/-- A text in quotes. -/
def quoted (s : String) : String := String.ofList ('"' :: s.toList.flatMap escape ++ ['"'])

/-- The start of a line. -/
def newline (depth : Nat) : String := "\n" ++ String.ofList (List.replicate (2 * depth) ' ')

/-- Printed members between brackets, each on a line of its own. -/
def bracketed (opening closing : String) (depth : Nat) (members : List String) : String :=
  if members.isEmpty then opening ++ closing
  else
    let lines := members.map (newline (depth + 1) ++ ·)
    opening ++ ",".intercalate lines ++ newline depth ++ closing

mutual

/-- The value as it stands `depth` levels in. -/
def pretty (depth : Nat) : Value → String
  | null => "null"
  | natural n => toString n
  | real x => (Decimal.shortest x).text
  | text s => quoted s
  | list elements => bracketed "[" "]" depth (prettyElements depth elements)
  | record fields => bracketed "\x7b" "\x7d" depth (prettyFields depth fields)

def prettyElements (depth : Nat) : List Value → List String
  | [] => []
  | v :: rest => v.pretty (depth + 1) :: prettyElements depth rest

def prettyFields (depth : Nat) : List (String × Value) → List String
  | [] => []
  | (name, v) :: rest => (quoted name ++ ": " ++ v.pretty (depth + 1)) :: prettyFields depth rest

end

/-- The text of a value. -/
def toText (v : Value) : String := v.pretty 0

end Value

end Lexicon.Json

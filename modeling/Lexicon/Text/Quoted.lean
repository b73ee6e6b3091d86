import Lexicon.Text.Combining
import Lexicon.Text.Unprinted

/-!
# Quoted text

A text between double quotes, in which a reader of a message can tell every character: quotes,
backslashes and the common blanks are escaped by a letter, characters that show nothing or combine
with the one before them by their number, and the rest stand as they are.
-/

namespace Lexicon.Text

/-- Whether a character cannot be told from what stands beside it. -/
def isHidden (c : Char) : Bool := !(' ' ≤ c && c ≤ '~') && (isUnprinted c || isCombining c)

/-- How a character stands in a quoted text. -/
def escape (c : Char) : List Char :=
  if c = '\x00' then ['\\', '0']
  else if c = '\t' then ['\\', 't']
  else if c = '\r' then ['\\', 'r']
  else if c = '\n' then ['\\', 'n']
  else if c = '"' then ['\\', '"']
  else if c = '\\' then ['\\', '\\']
  else if isHidden c then
    ['\\', 'u', Char.ofNat 0x7B] ++ Nat.toDigits 16 c.toNat ++ [Char.ofNat 0x7D]
  else [c]

/-- The text in quotes. -/
def quoted (s : String) : String :=
  String.ofList ('"' :: s.toList.flatMap escape ++ ['"'])

end Lexicon.Text

/-!
# Styled text

A text for a terminal is a row of spans, each plain or in a style. A styled span starts with the
codes of its style and is followed by the code that ends all styles; without styles only the text is
left.
-/

namespace Lexicon.Text

inductive Color where
  | red
  | green
  | magenta
  | cyan
  deriving DecidableEq, Repr

/-- The number of a color in its code. -/
def Color.code : Color → Nat
  | .red => 1
  | .green => 2
  | .magenta => 5
  | .cyan => 6

structure Style where
  color : Color
  bold : Bool := false
  deriving DecidableEq, Repr

/-- A part of a text. -/
structure Span where
  text : String
  style : Option Style := none
  deriving DecidableEq, Repr

namespace Span

/-- The code that ends all styles. -/
def reset : String := "\x1b[0m"

def render (styled : Bool) (s : Span) : String :=
  match s.style.filter fun _ => styled with
  | none => s.text
  | some style =>
    let bold := if style.bold then "\x1b[1m" else ""
    reset ++ bold ++ s!"\x1b[3{style.color.code}m" ++ s.text ++ reset

/-- The text of a row of spans. -/
def renderAll (styled : Bool) (spans : List Span) : String :=
  String.join (spans.map (render styled))

end Span

end Lexicon.Text

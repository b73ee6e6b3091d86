import Lexicon.Command.Basic
import Lexicon.Text.Whole

/-!
# Arguments of a command line

A command line is a row of words, of which some name options and the others are, in order, the
command and what it works on. The value of an option is the next word, or stands behind an equals
sign, or right behind the letter of the option. Behind two dashes alone no word names an option.

`Word.scan` tells the words apart and `Invocation.parse` understands them.
-/

namespace Lexicon

/-- Why a command line is not understood. -/
inductive UsageFault where
  | noCommand
  | unknownCommand (name : String)
  | unknownOption (name : String)
  | missingValue (name : String)
  | unexpectedValue (name : String)
  | badNumber (name value : String)
  | missing (what : String)
  | unexpected (word : String)
  deriving DecidableEq, Repr

def UsageFault.message : UsageFault → String
  | .noCommand => "a command is missing: build, stats, lookup or dump"
  | .unknownCommand name => s!"unknown command '{name}'"
  | .unknownOption name => s!"unknown option '{name}'"
  | .missingValue name => s!"option '{name}' has no value"
  | .unexpectedValue name => s!"option '{name}' takes no value"
  | .badNumber name value => s!"option '{name}' takes a number, not '{value}'"
  | .missing what => s!"missing: {what}"
  | .unexpected word => s!"unexpected: {word}"

/-- An option. -/
structure OptionSpec where
  name : String
  letter : Option Char := none
  takesValue : Bool := true
  deriving DecidableEq, Repr

namespace OptionSpec

def segment : OptionSpec := { name := "segment", letter := some 's' }

/-- The options that every command has. -/
def shared : List OptionSpec := [{ name := "log" }, { name := "no-color", takesValue := false }]

/-- The options behind the name of a command, or before any. -/
def ofCommand : Option String → List OptionSpec
  | some "build" =>
    [segment, { name := "out", letter := some 'o' }, { name := "min-block" },
      { name := "max-block" }, { name := "config" },
      { name := "quiet", letter := some 'q', takesValue := false }] ++ shared
  | some "stats" => [segment, { name := "json", takesValue := false }] ++ shared
  | some "lookup" => segment :: shared
  | some "dump" => [segment, { name := "prefix", letter := some 'p' }] ++ shared
  | _ => shared

end OptionSpec

/-- A word of a command line that is understood: an operand or an option with its value. -/
inductive Word where
  | operand (text : String)
  | option (name value : String)
  deriving DecidableEq, Repr

namespace Word

/-- An option whose value may stand behind its name; else the name of the option whose value is the
next word. -/
def named (o : OptionSpec) (value : Option String) :
    Except UsageFault (List Word × Option String) :=
  match o.takesValue, value with
  | true, some value => .ok ([.option o.name value], none)
  | true, none => .ok ([], some o.name)
  | false, none => .ok ([.option o.name ""], none)
  | false, some _ => .error (.unexpectedValue o.name)

/-- Options by their letters. -/
def letters (options : List OptionSpec) :
    List Char → Except UsageFault (List Word × Option String)
  | [] => .ok ([], none)
  | c :: rest =>
    match options.find? (·.letter = some c) with
    | none => .error (.unknownOption (String.singleton c))
    | some o =>
      if o.takesValue then
        named o <| match rest with
          | [] => none
          | '=' :: value => some (String.ofList value)
          | value => some (String.ofList value)
      else do
        let (words, awaited) ← letters options rest
        return (.option o.name "" :: words, awaited)

/-- An option by its name. -/
def long (options : List OptionSpec) (text : List Char) :
    Except UsageFault (List Word × Option String) :=
  let name := String.ofList (text.takeWhile (· ≠ '='))
  let value := (text.dropWhile (· ≠ '=')).tail?.map String.ofList
  match options.find? (·.name = name) with
  | none => .error (.unknownOption name)
  | some o => named o value

/-- Tells words apart. Before are the command, if it is known, and the option that awaits its value.
-/
def scan : Option String → Option String → List String → Except UsageFault (List Word)
  | _, none, [] => .ok []
  | _, some name, [] => .error (.missingValue name)
  | command, some name, value :: rest => do
    return .option name value :: (← scan command none rest)
  | command, none, word :: rest => do
    let options := OptionSpec.ofCommand command
    match word.toList with
    | ['-', '-'] => return rest.map .operand
    | '-' :: '-' :: text =>
      let (words, awaited) ← long options text
      return words ++ (← scan command awaited rest)
    | '-' :: c :: text =>
      let (words, awaited) ← letters options (c :: text)
      return words ++ (← scan command awaited rest)
    | _ => return .operand word :: (← scan (some (command.getD word)) none rest)

/-- The operands in order. -/
def operands (words : List Word) : List String :=
  words.filterMap fun
    | .operand text => some text
    | .option .. => none

/-- The value of an option. -/
def value? (words : List Word) (name : String) : Option String :=
  words.findSome? fun
    | .operand _ => none
    | .option n value => if n = name then some value else none

/-- The value of an option that is a number. -/
def number? (words : List Word) (name : String) : Except UsageFault (Option Nat) :=
  match value? words name with
  | none => .ok none
  | some text =>
    match Text.Whole.parse (2 ^ 64) text.toList with
    | .ok n => .ok (some n)
    | .error _ => .error (.badNumber name text)

end Word

namespace Command

/-- What the operands of a command are. -/
def operandNames? : String → Option (List String)
  | "build" => some ["listing"]
  | "stats" => some ["directory"]
  | "lookup" => some ["directory", "field", "term"]
  | "dump" => some ["directory", "field"]
  | _ => none

/-- Refuses too few operands and too many. -/
def checkOperands : List String → List String → Except UsageFault Unit
  | [], [] => .ok ()
  | [], word :: _ => .error (.unexpected word)
  | name :: _, [] => .error (.missing name)
  | _ :: names, _ :: words => checkOperands names words

/-- Understands the words behind the name of a command. -/
def ofWords (words : List Word) (name : String) (operands : List String) :
    Except UsageFault Command := do
  let value := Word.value? words
  let place (dir : String) : Place := ⟨⟨dir⟩, (value "segment").getD "_0"⟩
  match operandNames? name with
  | none => throw (.unknownCommand name)
  | some names => checkOperands names operands
  match name, operands with
  | "build", [listing] =>
    match value "out" with
    | none => throw (.missing "--out")
    | some dir =>
      return .build { listing := ⟨listing⟩, place := place dir
                      config := (value "config").map Path.mk
                      minBlock := ← Word.number? words "min-block"
                      maxBlock := ← Word.number? words "max-block"
                      quiet := (value "quiet").isSome }
  | "stats", [dir] => return .stats (place dir) (value "json").isSome
  | "lookup", [dir, field, term] => return .lookup (place dir) field term
  | "dump", [dir, field] => return .dump (place dir) field ((value "prefix").getD "")
  | name, _ => throw (.unknownCommand name)

end Command

/-- Understands a command line. -/
def Invocation.parse (args : List String) : Except UsageFault Invocation := do
  let words ← Word.scan none none args
  match Word.operands words with
  | [] => throw .noCommand
  | name :: operands =>
    return { command := ← Command.ofWords words name operands
             styled := (Word.value? words "no-color").isNone }

end Lexicon

import Lexicon.Cursor
import Lexicon.Stream.Item
import Lexicon.Term.State

/-!
# Field summaries

What a reader has to know of a field before it reads any block: how many terms it has and which are
the first and the last, sums over them, and where its index is. A stored summary is accepted only if
its numbers agree with each other.
-/

namespace Lexicon

/-- The summary of a field. -/
structure FieldSummary where
  number : UInt32
  terms : UInt64 := 0
  /-- Where the root blocks are, as the index stores it; empty without terms. -/
  rootCode : Bytes := []
  /-- How often all terms occur, in fields with frequencies. -/
  sumTotalFreq : Option UInt64 := none
  /-- Sum of the terms' numbers of documents. -/
  sumDocFreq : UInt64 := 0
  /-- Number of documents that hold a term of the field. -/
  docCount : UInt32 := 0
  minTerm : Bytes := []
  maxTerm : Bytes := []
  /-- Where the index of the field starts. -/
  indexStart : UInt64 := 0
  deriving DecidableEq, Repr

namespace FieldSummary

/-- The summary of a field without terms. -/
def empty (number : UInt32) (hasFreqs : Bool) (indexStart : UInt64) : FieldSummary :=
  { number, sumTotalFreq := if hasFreqs then some 0 else none, indexStart }

def hasTerms (s : FieldSummary) : Bool := 0 < s.terms

def items (s : FieldSummary) : List Item :=
  [.vint s.number, .vlong s.terms, .block s.rootCode]
    ++ s.sumTotalFreq.toList.map .vlong
    ++ [.vlong s.sumDocFreq, .vint s.docCount, .block s.minTerm, .block s.maxTerm,
      .vlong s.indexStart]

/-- Refuses numbers that no field has; `name` is the field's. -/
def check (s : FieldSummary) (name : String) : Except Error Unit :=
  if s.terms = 0 then
    if s.rootCode ≠ [] ∨ s.sumDocFreq ≠ 0 ∨ s.docCount ≠ 0 then
      .error (.corrupt (.aggregatesWithoutTerms name))
    else .ok ()
  else if s.rootCode = [] then .error (.corrupt (.noRootBlock name))
  else if s.sumDocFreq.toNat < s.docCount.toNat then
    .error (.corrupt (.docFreqBelowDocCount name s.sumDocFreq.toNat s.docCount.toNat))
  else
    match s.sumTotalFreq.filter (· < s.sumDocFreq) with
    | some sum => .error (.corrupt (.totalFreqBelowDocFreq name sum.toNat s.sumDocFreq.toNat))
    | none => if s.maxTerm < s.minTerm then .error (.corrupt (.minAfterMax name)) else .ok ()

/-- Reads the summary of one of the given fields. -/
def read (infos : List FieldInfo) : Read FieldSummary := do
  let number := UInt32.ofNat (← Read.vint)
  match infos.find? (·.number = number) with
  | none => Read.corrupt (.unknownFieldNumber number.toNat)
  | some info =>
    let terms ← Read.vlong
    let rootCode ← Read.block
    let sumTotalFreq ← if info.options.hasFreqs then some <$> Read.vlong else pure none
    let sumDocFreq ← Read.vlong
    let docCount ← Read.vint
    let minTerm ← Read.block
    let maxTerm ← Read.block
    let indexStart ← Read.vlong
    let summary : FieldSummary :=
      { number, terms := .ofNat terms, rootCode, sumTotalFreq := sumTotalFreq.map .ofNat
        sumDocFreq := .ofNat sumDocFreq, docCount := .ofNat docCount, minTerm, maxTerm
        indexStart := .ofNat indexStart }
    match summary.check info.name with
    | .ok () => return summary
    | .error e => throw e

end FieldSummary

end Lexicon

import Lexicon.Json.Fault
import Lexicon.Listing
import Lexicon.Path

/-!
# Failures of whole tasks

A task that works on files fails for a cause deep inside of it. A failure holds what was being done,
the outermost task first, and the cause; `Failure.messages` tells it in this order.
-/

namespace Lexicon

/-- What was being done. -/
inductive Task where
  | readListing (path : Path)
  | parseListing (path : Path)
  | readSizes (path : Path)
  | parseSizes (path : Path)
  | checkSizes
  | makeDirectory (path : Path)
  | createDictionary
  | closeDictionary
  | readDocLists (path : Path)
  | writeDocLists (path : Path)
  | openSegment (name : String) (dir : Path)
  | walkBlocks (field : String)
  deriving DecidableEq, Repr

def Task.message : Task → String
  | .readListing path => s!"Failed to read listing {path.text}"
  | .parseListing path => s!"Invalid listing {path.text}"
  | .readSizes path => s!"Failed to read config {path.text}"
  | .parseSizes path => s!"Invalid config {path.text}"
  | .checkSizes => "Invalid block configuration"
  | .makeDirectory path => s!"Failed to create {path.text}"
  | .createDictionary => "Failed to create terms dictionary"
  | .closeDictionary => "Failed to close terms dictionary"
  | .readDocLists path => s!"Failed to read {path.text}"
  | .writeDocLists path => s!"Failed to write {path.text}"
  | .openSegment name dir => s!"Failed to open segment {name} in {dir.text}"
  | .walkBlocks field => s!"Failed to walk blocks of field '{field}'"

/-- What went wrong. -/
inductive Cause where
  | error (e : Error)
  | medium (fault : MediumFault)
  | listing (fault : ListingFault)
  | json (misread : Json.Misread)
  /-- A term has no document list. -/
  | noDocList
  deriving DecidableEq, Repr

/-- What went wrong, down to the fault of a medium. -/
def Cause.messages : Cause → List String
  | .error (.medium fault) => [(Error.medium fault).message, fault.message]
  | .error e => [e.message]
  | .medium fault => [fault.message]
  | .listing fault => fault.messages
  | .json misread => [misread.message]
  | .noDocList => ["term has no postings offset"]

/-- Whether the program is broken off there, and does not end by itself. -/
def Cause.breaksOff : Cause → Bool
  | .error (.misuse _) => true
  | .listing ⟨_, .overflow _⟩ => true
  | _ => false

/-- The tasks that failed, the outermost first, and why. -/
structure Failure where
  tasks : List Task := []
  cause : Cause
  deriving DecidableEq, Repr

namespace Failure

def messages (f : Failure) : List String := f.tasks.map Task.message ++ f.cause.messages

/-- The failure of a task in which another failed. -/
def within (f : Failure) (task : Task) : Failure := { f with tasks := task :: f.tasks }

/-- The failure of no known task. -/
def of (cause : Cause) : Failure := { cause }

end Failure

end Lexicon

import Lexicon.Error
import Lexicon.Path

/-!
# Files

The files that a command finds and leaves, as a value: directories, and files with their bytes, each
at its spot. `Files.locate` follows a path to a spot. Every name on the way has to be that of a
directory, also if two dots behind it lead out again. What may stand at the end is up to what is
done there: `Files.read`, `Files.write`, `Files.makeDir` and `Files.remove`.
-/

namespace Lexicon

/-- The names of the directories from the root on, and last the name of what is there. -/
abbrev Spot := List String

/-- Directories and files. -/
structure Files where
  /-- The directory that one works in. It exists, and so do those that it is in. -/
  working : Spot := []
  /-- The other directories. -/
  dirs : List Spot := []
  files : List (Spot × Bytes) := []
  deriving DecidableEq, Repr, Inhabited

/-- What is at a spot. -/
inductive Node where
  | dir
  | file (data : Bytes)
  deriving DecidableEq, Repr

/-- A computation on files. -/
abbrev OnFiles := EStateM MediumFault Files

namespace Files

/-! ## Following paths -/

/-- Number of bytes that a path has to stay below. -/
def pathLimit : Nat := 4096

/-- Number of bytes that a name may have. -/
def nameLimit : Nat := 255

def node? (fs : Files) (spot : Spot) : Option Node :=
  if spot.isPrefixOf fs.working || fs.dirs.contains spot then some .dir
  else (fs.files.lookup spot).map .file

/-- The spot of a name in a directory. -/
def child (dir : Spot) (name : String) : Except MediumFault Spot :=
  if nameLimit < name.utf8ByteSize then .error .nameTooLong else .ok (dir ++ [name])

/-- Goes on from a directory by a name that others follow. The root is around itself. -/
def enter (fs : Files) (dir : Spot) (name : String) : Except MediumFault Spot := do
  if name = "." then return dir
  if name = ".." then return dir.dropLast
  let spot ← child dir name
  match fs.node? spot with
  | some .dir => return spot
  | some (.file _) => throw .notDirectory
  | none => throw .missing

/-- What a path leads to. -/
inductive Target where
  /-- A directory that the path has been through. -/
  | passed (dir : Spot)
  /-- A name in a directory; there need not be anything. -/
  | entry (dir : Spot) (name : String)
  deriving DecidableEq, Repr

/-- Follows a path. -/
def locate (fs : Files) (p : Path) : Except MediumFault Target := do
  -- a text with a zero byte is no path, whatever else is wrong with it
  if '\x00' ∈ p.text.toList then throw .badName
  if p.text = "" then throw .missing
  if pathLimit ≤ p.text.utf8ByteSize then throw .nameTooLong
  let start := if p.isAbsolute then [] else fs.working
  let dir ← p.names.dropLast.foldlM fs.enter start
  match p.names.getLast? with
  | none | some "." => return .passed dir
  | some ".." => return .passed dir.dropLast
  | some name => return .entry dir name

/-- What is there at the end of a path, and its spot. -/
def find (fs : Files) (p : Path) : Except MediumFault (Spot × Node) := do
  match ← fs.locate p with
  | .passed dir => return (dir, .dir)
  | .entry dir name =>
    let spot ← child dir name
    match fs.node? spot with
    | none => throw .missing
    | some .dir => return (spot, .dir)
    | some (.file data) => if p.endsInSlash then throw .notDirectory else return (spot, .file data)

/-- Whether a path leads to a directory. -/
def isDir (fs : Files) (p : Path) : Bool :=
  match fs.find p with
  | .ok (_, .dir) => true
  | _ => false

/-! ## Reading -/

/-- The bytes of a file. -/
def read (fs : Files) (p : Path) : Except MediumFault Bytes := do
  match ← fs.find p with
  | (_, .file data) => return data
  | (_, .dir) => throw .isDirectory

/-- The bytes of a file that is taken into memory. Of a directory none can be taken. -/
def mapped (fs : Files) (p : Path) : Except MediumFault Bytes := do
  match ← fs.find p with
  | (_, .file data) => return data
  | (_, .dir) => throw .noDevice

/-- Number of bytes that a directory takes. -/
def dirSize : Nat := 4096

/-- Number of bytes of a file or a directory. -/
def size (fs : Files) (p : Path) : Except MediumFault Nat := do
  match ← fs.find p with
  | (_, .file data) => return data.length
  | (_, .dir) => return dirSize

/-! ## Changes -/

/-- Makes a fault of files one of a computation. -/
def lift {α : Type} : Except MediumFault α → OnFiles α
  | .ok a => pure a
  | .error fault => throw fault

/-- The files without the one at a spot. -/
def erase (fs : Files) (spot : Spot) : Files :=
  { fs with files := fs.files.filter fun f => f.1 ≠ spot }

/-- Writes a file in a directory that exists; what it held before is gone. -/
def write (p : Path) (data : Bytes) : OnFiles Unit := do
  let fs ← get
  match ← lift (fs.locate p) with
  | .passed _ => throw .isDirectory
  | .entry dir name =>
    if p.endsInSlash then throw .isDirectory
    let spot ← lift (child dir name)
    match fs.node? spot with
    | some .dir => throw .isDirectory
    | _ => set { fs with files := (fs.erase spot).files ++ [(spot, data)] }

/-- Removes a file. -/
def remove (p : Path) : OnFiles Unit := do
  let fs ← get
  match ← lift (fs.find p) with
  | (spot, .file _) => set (fs.erase spot)
  | (_, .dir) => throw .isDirectory

/-- The files without one of them; if it cannot be removed it stays. -/
def without (fs : Files) (p : Path) : Files :=
  match remove p fs with
  | .ok () fs | .error _ fs => fs

/-- Makes a directory in one that exists. -/
def makeDir (p : Path) : OnFiles Unit := do
  let fs ← get
  match ← lift (fs.locate p) with
  | .passed _ => throw .occupied
  | .entry dir name =>
    let spot ← lift (child dir name)
    if (fs.node? spot).isSome then throw .occupied
    set { fs with dirs := fs.dirs ++ [spot] }

/-- Makes a directory if it does not exist, in one that does. -/
def ensureDir (p : Path) : OnFiles Unit := fun fs =>
  match makeDir p fs with
  | .ok () fs => .ok () fs
  | .error fault fs => if fault = .occupied ∧ fs.isDir p then .ok () fs else .error fault fs

/-- Makes the first of some directories, each of which is in the next one, and before it those in
which it is to be. -/
def ensureDirs : List Path → OnFiles Unit
  | [] => pure ()
  | p :: outer => fun fs =>
    match ensureDir p fs with
    -- one is missing on the way: those are made first, then this one is tried again
    | .error .missing fs => (do ensureDirs outer; ensureDir p) fs
    | result => result

/-- Makes a directory and those on the way to it, if they do not exist. Where a path starts there is
nothing to make. -/
def makeDirs (p : Path) : OnFiles Unit :=
  if p.components.isEmpty then pure () else ensureDirs (p :: p.parents)

end Files

end Lexicon

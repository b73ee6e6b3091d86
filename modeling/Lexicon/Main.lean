import Lexicon.Command.Arguments
import Lexicon.Command.Run
import Std.Time.DateTime.Timestamp

/-!
# The program

Reads the files that a command may look at, runs the command, and makes of the disk what the command
made of the files.
-/

namespace Lexicon.Program

/-- The path of a spot. -/
def pathOf (spot : Spot) : String := "/" ++ "/".intercalate spot

/-- Takes in what is on the disk at a spot. -/
def takeIn (fs : Files) (spot : Spot) : IO Files := do
  if (fs.node? spot).isSome then return fs
  try
    let data ← IO.FS.readBinFile (pathOf spot)
    return { fs with files := fs.files ++ [(spot, data.toList)] }
  catch
    | .inappropriateType .. => return { fs with dirs := fs.dirs ++ [spot] }
    | _ => return fs

/-- Takes in what is on the disk on the way along a path and at its end. -/
def load (fs : Files) (p : Path) : IO Files := do
  let step : Spot × Files → String → IO (Spot × Files) := fun (dir, fs) name => do
    if name = "." then return (dir, fs)
    if name = ".." then return (dir.dropLast, fs)
    let spot := dir ++ [name]
    return (spot, ← takeIn fs spot)
  let start := if p.isAbsolute then [] else fs.working
  return (← p.names.foldlM step (start, fs)).2

/-- Takes in all files of a segment. -/
def loadSegment (dir : Path) (fs : Files) (s : Segment) : IO Files :=
  (SegmentReport.extensions.map (s.path dir)).foldlM load fs

/-- Takes in the files that a command may look at. -/
def loadFor (fs : Files) : Command → IO Files
  | .build r => do
    let fs ← ([r.listing] ++ r.config.toList).foldlM load fs
    loadSegment r.place.dir fs { name := r.place.segment, id := default }
  | .stats place _ | .lookup place .. | .dump place .. => do
    let fs ← loadSegment place.dir fs { name := place.segment, id := default }
    match Reader.readDescriptor fs place.dir place.segment with
    | .ok d => loadSegment place.dir fs d.segment
    | .error _ => return fs

/-- Changes on the disk what is not as it was. -/
def store (before after : Files) : IO Unit := do
  for dir in after.dirs do
    unless before.dirs.contains dir do IO.FS.createDirAll (pathOf dir)
  for (spot, data) in after.files do
    unless before.files.lookup spot = some data do
      IO.FS.writeBinFile (pathOf spot) data.toByteArray
  for (spot, _) in before.files do
    if (after.files.lookup spot).isNone then IO.FS.removeFile (pathOf spot)

/-- Runs the command of a command line; the code that the program ends with. -/
def run (args : List String) : IO UInt32 := do
  match Invocation.parse args with
  | .error fault =>
    IO.eprintln s!"error: {fault.message}"
    return 2
  | .ok invocation =>
    let now ← Std.Time.Timestamp.now
    let working := (Path.mk (← IO.currentDir).toString).names
    let before ← loadFor { working } invocation.command
    let (outcome, after) := invocation.run now.toNanosecondsSinceUnixEpoch.toInt.toNat before
    store before after
    IO.print outcome.stdout
    IO.eprint outcome.stderr
    return UInt32.ofNat outcome.code

end Lexicon.Program

def main (args : List String) : IO UInt32 := Lexicon.Program.run args

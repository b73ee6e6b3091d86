/-!
# Paths

A path is a text of names with slashes between them, which leads from a directory to a file: from
the root if it starts with a slash, else from the directory that one works in. What the names lead
to hangs on the files, so a path is kept as it is spelled.
-/

namespace Lexicon

structure Path where
  text : String
  deriving DecidableEq, Repr, Inhabited

namespace Path

/-- Whether the path starts at the root. -/
def isAbsolute (p : Path) : Bool := p.text.toList.head? = some '/'

/-- Whether the path ends in a slash, which says that it leads to a directory. -/
def endsInSlash (p : Path) : Bool := p.text.toList.getLast? = some '/'

/-- The names in order. -/
def names (p : Path) : List String :=
  ((p.text.toList.splitOn '/').map String.ofList).filter (· ≠ "")

/-- The path of a file in a directory. A name that is an absolute path stays as it is. -/
def join (dir : Path) (name : String) : Path :=
  if (⟨name⟩ : Path).isAbsolute then ⟨name⟩
  else if dir.text = "" ∨ dir.endsInSlash then ⟨dir.text ++ name⟩
  else ⟨dir.text ++ "/" ++ name⟩

/-- The names that lead on: a dot does not, but the one that a path starts with is kept. -/
def components (p : Path) : List String :=
  let start := if p.isAbsolute then [] else (p.names.take 1).filter (· = ".")
  start ++ p.names.filter (· ≠ ".")

/-- The path that leads from where another starts along some names. -/
def along (p : Path) (names : List String) : Path :=
  ⟨(if p.isAbsolute then "/" else "") ++ "/".intercalate names⟩

/-- The directories on the way to a path, the innermost first. Where the path starts is not among
them. -/
def parents (p : Path) : List Path :=
  let components := p.components
  (List.range (components.length - 1)).reverse.map fun i => p.along (components.take (i + 1))

end Path

end Lexicon

/-! Names of source files. Two spellings name the same file when they have the
same components, so repeated and trailing separators do not matter; the
spelling itself is kept for display. -/
namespace DesignHierarchy

structure SourcePath where
  text : String
deriving DecidableEq, Repr

namespace SourcePath

inductive Component where
  /-- The leading separator of an absolute path. -/
  | root
  /-- A leading `.`; elsewhere a single dot adds nothing. -/
  | here
  | named (name : List Char)
deriving DecidableEq, Repr

/-- What a piece inside a path stands for; parent steps `..` are ordinary names. -/
def inner? (piece : List Char) : Option Component :=
  if piece = [] ∨ piece = ['.'] then none else some (.named piece)

def componentsOf (cs : List Char) : List Component :=
  match cs.splitOn '/' with
  | [] => []
  | first :: rest =>
    let start : List Component :=
      if first = [] then (if rest = [] then [] else [.root])
      else if first = ['.'] then [.here]
      else [.named first]
    start ++ rest.filterMap inner?

/-- The identity of a path: spellings with equal components name one file. -/
def components (path : SourcePath) : List Component :=
  componentsOf path.text.toList

end SourcePath

end DesignHierarchy

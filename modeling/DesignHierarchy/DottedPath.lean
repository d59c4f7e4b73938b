/-! Dotted paths through a hierarchy, such as `top.blk[2].u1`. Replication is
not part of a hierarchy, so numeric array indices are dropped before a path is
read. -/
namespace DesignHierarchy.DottedPath

/-- The length of the digits and bracket that complete an index whose opening bracket
stands right before `cs`, if they do. -/
def indexLength? (cs : List Char) : Option Nat :=
  let digits := (cs.takeWhile Char.isDigit).length
  if 0 < digits ∧ cs[digits]? = some ']' then some (digits + 1) else none

/-- Passes over `skip` characters, then drops every complete index. Other brackets, such as
`[i]` or `[3:0]`, are text. -/
def dropIndices : Nat → List Char → List Char
  | _, [] => []
  | skip + 1, _ :: cs => dropIndices skip cs
  | 0, c :: cs =>
    if c = '[' then
      match indexLength? cs with
      | some length => dropIndices length cs
      | none => c :: dropIndices 0 cs
    else c :: dropIndices 0 cs

theorem dropIndices_eq_drop (skip : Nat) (cs : List Char) :
    dropIndices skip cs = dropIndices 0 (cs.drop skip) := by
  induction skip generalizing cs with
  | zero => rfl
  | succ skip ih =>
    cases cs with
    | nil => simp [dropIndices]
    | cons c cs => simp [dropIndices, ih]

/-- The path without its array indices. -/
def stripIndices (path : String) : String :=
  String.ofList (dropIndices 0 path.toList)

/-- Nothing in the path is an array index. -/
def isIndexFree (path : String) : Bool :=
  stripIndices path = path

/-- The names along a path; the empty path has none. -/
def segments (path : String) : List String :=
  if path = "" then [] else (path.toList.splitOn '.').map String.ofList

/-- The path with these names along it. -/
def ofNames (names : List String) : String :=
  ".".intercalate names

/-- The names a path asks for, once array indices are dropped. -/
def names (path : String) : List String :=
  segments (stripIndices path)

end DesignHierarchy.DottedPath

import DesignHierarchy.DottedPath
import DesignHierarchy.InstanceIndex.Roster
import DesignHierarchy.Journal
import DesignHierarchy.Scope.Node
import DesignHierarchy.Table

/-! From a definition to all its instances under one top. Paths are kept in the
order of the visits; of two nodes with one path, the later one counts. -/
namespace DesignHierarchy

inductive Status where
  | empty
  /-- A pass was started, and abandoned before its end. -/
  | inProgress
  | complete
  | cancelled
deriving DecidableEq, Repr

structure InstanceIndex where
  /-- The instances found, per definition. -/
  entries : Table DefId Roster := ∅
  status : Status := .empty
  top : Option Symbol := none
  trail : Array NodeId := #[]
  /-- The visited nodes that were not entered, because their definition was open already. -/
  cut : Array NodeId := #[]

namespace InstanceIndex

def isComplete (index : InstanceIndex) : Bool := index.status = .complete

def visited (index : InstanceIndex) : Nat := index.trail.size

def truncated (index : InstanceIndex) : Nat := index.cut.size

def instancesOf (index : InstanceIndex) (definition : DefId) : List (String × NodeId) :=
  ((index.entries.get? definition).map (·.entries)).getD []

/-- The definitions with an instance, in order of their ids. -/
def definitions (index : InstanceIndex) : List DefId := DefId.ascending index.entries.keys

def definitionCount (index : InstanceIndex) : Nat := index.entries.size

def instanceCount (index : InstanceIndex) : Nat := (index.entries.values.flatMap (·.paths)).length

/-- The node at a path, if it is a known instance of the definition. The name of the top may be
left out, and that reading is tried first. -/
def reveal (index : InstanceIndex) (definition : DefId) (path : String) : Option NodeId := do
  let roster ← index.entries.get? definition
  let stripped := DottedPath.stripIndices path
  let below := if stripped = "" then none else
    index.top.bind fun top => roster.get? (top.name ++ "." ++ stripped)
  below.or (roster.get? stripped)

def opened (top : Symbol) : InstanceIndex := { status := .inProgress, top := some top }

def add (index : InstanceIndex) (definition : DefId) (path : String) (id : NodeId) : InstanceIndex :=
  { index with
    entries := index.entries.update definition fun roster => (roster.getD ∅).insert path id }

/-- Notes a visit, and the instance if the node is one. -/
def visit (index : InstanceIndex) (id : NodeId) (node : Node) (path : String) : InstanceIndex :=
  let seen := { index with trail := index.trail.push id }
  match node.instanceOf with
  | some definition => seen.add definition path id
  | none => seen

def truncate (index : InstanceIndex) (id : NodeId) : InstanceIndex :=
  { index with cut := index.cut.push id }

def tally (index : InstanceIndex) : Tally where
  visited := index.visited
  definitions := index.definitionCount
  instances := index.instanceCount
  recursive := index.truncated

end InstanceIndex

end DesignHierarchy

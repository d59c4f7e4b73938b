import DesignHierarchy.Error
import DesignHierarchy.Scope.Expand

/-! Finding the node at a dotted path. Names are matched exactly and the first
match wins. The top's own name may lead the path, unless a child of the top has
that name. -/
namespace DesignHierarchy

def PathError.event (path : String) : PathError → Event
  | .segmentNotFound segment parent => .pathMissed path segment parent
  | .notAnInstanceOf given definition => .notAnInstance given definition

namespace Tree

def nameAt (tree : Tree) (id : NodeId) : String := ((tree.node? id).map (·.name)).getD ""

def named? (tree : Tree) (name : String) (ids : List NodeId) : Option NodeId :=
  ids.find? fun id => (tree.node? id).any (·.name = name)

/-- The first child with this name among those already materialized. -/
def child? (tree : Tree) (id : NodeId) (name : String) : Option NodeId :=
  (tree.children? id).bind (tree.named? name)

def notFound (tree : Tree) (id : NodeId) (name : String) : PathError :=
  .segmentNotFound name (tree.nameAt id)

def follow (tree : Tree) (id : NodeId) : List String → Except PathError NodeId
  | [] => .ok id
  | name :: rest =>
    match tree.child? id name with
    | some child => tree.follow child rest
    | none => .error (tree.notFound id name)

/-- Finds the node at a path without materializing anything. -/
def locate (tree : Tree) (path : String) : Except PathError NodeId :=
  match DottedPath.names path with
  | [] => .ok .root
  | first :: rest =>
    if tree.top.name = first ∧ tree.child? .root first = none then tree.follow .root rest
    else tree.follow .root (first :: rest)

end Tree

namespace Elaborator

/-- The first child with this name, expanding its parent if need be. -/
def findChild (lookup : Lookup) (id : NodeId) (name : String) (limit : Option Nat := none) :
    Call Elaborator (Option NodeId) := do
  let children ← expand lookup id limit
  Call.gets (·.tree.named? name children)

def follow (lookup : Lookup) (id : NodeId) (names : List String) (limit : Option Nat := none) :
    Call Elaborator (Except PathError NodeId) := do
  match names with
  | [] => return .ok id
  | name :: rest =>
    match ← findChild lookup id name limit with
    | some child => follow lookup child rest limit
    | none => return .error (← Call.gets (·.tree.notFound id name))

/-- The names to follow from the root, without a leading name of the top. -/
def relative (lookup : Lookup) (names : List String) (limit : Option Nat := none) :
    Call Elaborator (List String) := do
  match names with
  | [] => return []
  | first :: rest =>
    if (← Call.gets (·.tree.top.name)) = first then
      match ← findChild lookup .root first limit with
      | none => return rest
      | some _ => return first :: rest
    else return first :: rest

def explain (path : String) (answer : Except PathError NodeId) : Call σ (Except PathError NodeId) := do
  match answer with
  | .ok id => return .ok id
  | .error cause =>
    Call.emit (cause.event path)
    return .error cause

/-- Finds the node at a path, materializing what lies along it. -/
def resolvePath (lookup : Lookup) (path : String) (limit : Option Nat := none) :
    Call Elaborator (Except PathError NodeId) := do
  let names ← relative lookup (DottedPath.names path) limit
  let answer ← follow lookup .root names limit
  explain path answer

def locate (path : String) : Call Elaborator (Except PathError NodeId) := do
  explain path (← Call.gets (·.tree.locate path))

end Elaborator

end DesignHierarchy

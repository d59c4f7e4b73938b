import DesignHierarchy.Target

/-! Nodes of an elaborated hierarchy. -/
namespace DesignHierarchy

inductive NodeKind where
  | root
  /-- An instance, with its type as written; it is recursive when its definition is already
  open above it. -/
  | inst (typeName : Option String) (recursive : Bool)
  | block
  | leaf
deriving DecidableEq, Repr

structure Node where
  symbol : Symbol
  /-- Whose children this node shows. -/
  definition : Option Symbol
  parent : Option NodeId
  kind : NodeKind

namespace Node

def name (node : Node) : String := node.symbol.name

def isInstance (node : Node) : Bool :=
  match node.kind with
  | .inst .. => true
  | _ => false

def typeName (node : Node) : Option String :=
  match node.kind with
  | .inst typeName _ => typeName
  | _ => none

def isRecursive (node : Node) : Bool :=
  match node.kind with
  | .inst _ recursive => recursive
  | _ => false

def isUnresolved (node : Node) : Bool := node.isInstance && node.definition.isNone

def hasScope (node : Node) : Bool := node.definition.isSome

@[inline] def definitionId (node : Node) : Option DefId := node.definition.map (·.id)

/-- The definition that this node is an instance of; blocks and the top are none. -/
def instanceOf (node : Node) : Option DefId :=
  if node.isInstance then node.definitionId else none

def symbolTarget (node : Node) : Target := node.symbol.target

def definitionTarget (node : Node) : Option Target := node.definition.map (·.target)

end Node

end DesignHierarchy

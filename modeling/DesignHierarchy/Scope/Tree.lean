import DesignHierarchy.DottedPath
import DesignHierarchy.Scope.Node

/-! The part of a hierarchy that has been materialized so far. Nodes are only
ever added, and know their parents, so an id once given out keeps its meaning. -/
namespace DesignHierarchy

structure Tree where
  nodes : Array Node
  /-- The children of each node, unknown until it is expanded. -/
  children : Array (Option (List NodeId))
  nonempty : 0 < nodes.size
  /-- The two tables grow together. -/
  aligned : children.size = nodes.size

/-- What both tables hold about a node. -/
structure Slot where
  node : Node
  children : Option (List NodeId)

namespace Tree

def ofTop (top : Symbol) : Tree where
  nodes := #[⟨top, some top, none, .root⟩]
  children := #[none]
  nonempty := by simp
  aligned := rfl

def top (tree : Tree) : Symbol :=
  have := tree.nonempty
  tree.nodes[0].symbol

def size (tree : Tree) : Nat := tree.nodes.size

@[inline] def node? (tree : Tree) (id : NodeId) : Option Node := tree.nodes[id.index]?

def contains (tree : Tree) (id : NodeId) : Bool := id.index < tree.size

@[inline] def parent? (tree : Tree) (id : NodeId) : Option NodeId :=
  (tree.node? id).bind (·.parent)

def children? (tree : Tree) (id : NodeId) : Option (List NodeId) :=
  tree.children[id.index]?.join

@[inline] def slot? (tree : Tree) (id : NodeId) : Option Slot :=
  (tree.node? id).bind fun node => tree.children[id.index]?.map (Slot.mk node)

def isExpanded (tree : Tree) (id : NodeId) : Bool := (tree.children? id).isSome

def toList (tree : Tree) : List Slot :=
  tree.nodes.toList.zipWith Slot.mk tree.children.toList

/-- Follows parent links upwards, at most `steps` of them. -/
def climb (tree : Tree) : Nat → NodeId → List NodeId
  | 0, _ => []
  | steps + 1, id =>
    match tree.parent? id with
    | none => []
    | some parent => parent :: tree.climb steps parent

def ancestors (tree : Tree) (id : NodeId) : List NodeId := tree.climb tree.size id

def namesTo (tree : Tree) (id : NodeId) : List String :=
  ((id :: tree.ancestors id).filterMap fun id => (tree.node? id).map (·.name)).reverse

def path? (tree : Tree) (id : NodeId) : Option String :=
  if tree.contains id then some (DottedPath.ofNames (tree.namesTo id)) else none

/-- The definitions that are open at a node: its own and those of the nodes above it. -/
def openDefinitions (tree : Tree) (id : NodeId) : List DefId :=
  (id :: tree.ancestors id).filterMap fun id => (tree.node? id).bind (·.definitionId)

def definitions (tree : Tree) : List Symbol := tree.nodes.toList.filterMap (·.definition)

def nextId (tree : Tree) : NodeId := ⟨tree.size⟩

/-- The id of the next node, unless there are as many nodes as there may be. -/
def nextId? (tree : Tree) (limit : Option Nat) : Option NodeId :=
  if limit.any (· ≤ tree.size) then none else some tree.nextId

def add (tree : Tree) (node : Node) : Tree where
  nodes := tree.nodes.push node
  children := tree.children.push none
  nonempty := by simp
  aligned := by simp [tree.aligned]

/-- Records what expanding a node found. -/
def record (tree : Tree) (id : NodeId) (children : List NodeId) : Tree where
  nodes := tree.nodes
  children := tree.children.modify id.index fun _ => some children
  nonempty := tree.nonempty
  aligned := by simp [tree.aligned]

@[simp] theorem nextId?_none (tree : Tree) : tree.nextId? none = some tree.nextId := rfl

theorem nextId?_of_le {tree : Tree} {limit : Nat} (full : limit ≤ tree.size) :
    tree.nextId? (some limit) = none := by
  simp [nextId?, full]

theorem nextId?_of_lt {tree : Tree} {limit : Nat} (room : tree.size < limit) :
    tree.nextId? (some limit) = some tree.nextId := by
  simp [nextId?, room]

@[simp] theorem size_ofTop (top : Symbol) : (ofTop top).size = 1 := rfl

@[simp] theorem top_ofTop (top : Symbol) : (ofTop top).top = top := rfl

@[simp] theorem size_add (tree : Tree) (node : Node) : (tree.add node).size = tree.size + 1 := by
  simp [size, add]

@[simp] theorem size_record (tree : Tree) (id : NodeId) (children : List NodeId) :
    (tree.record id children).size = tree.size := rfl

@[simp] theorem node?_add (tree : Tree) (node : Node) (id : NodeId) :
    (tree.add node).node? id = if id.index = tree.size then some node else tree.node? id :=
  Array.getElem?_push

@[simp] theorem node?_record (tree : Tree) (id other : NodeId) (children : List NodeId) :
    (tree.record id children).node? other = tree.node? other := rfl

/-- An added node has no children yet, and there is nothing to say about absent nodes. -/
@[simp] theorem children?_add (tree : Tree) (node : Node) (id : NodeId) :
    (tree.add node).children? id = tree.children? id := by
  unfold children? add
  rw [Array.getElem?_push]
  split
  · rename_i h
    rw [h, Array.getElem?_eq_none (Nat.le_refl _)]
    rfl
  · rfl

theorem children?_record (tree : Tree) (id other : NodeId) (children : List NodeId) :
    (tree.record id children).children? other =
      if id = other ∧ id.index < tree.size then some children else tree.children? other := by
  rcases id with ⟨i⟩
  rcases other with ⟨j⟩
  simp only [children?, record, Array.getElem?_modify, NodeId.mk.injEq, size, ← tree.aligned]
  by_cases h : i = j
  · subst h
    by_cases hlt : i < tree.children.size
    · simp [hlt]
    · simp [hlt]
  · simp [h]

end Tree

end DesignHierarchy

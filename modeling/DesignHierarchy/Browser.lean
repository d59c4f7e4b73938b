import DesignHierarchy.InstanceIndex.Pass
import DesignHierarchy.Scope.Locate

/-! A browser shows the hierarchy under one top at a time. It owns the tree, the
remembered definitions and the index, which are replaced together, so an id from
the index is an id of the tree on show. -/
namespace DesignHierarchy

structure Browser where
  /-- Nothing is shown until a top is selected. -/
  tree : Option Tree := none
  memo : Memo := ∅
  index : InstanceIndex := {}
  /-- The scale of the progress estimate. -/
  scale : UInt32 := 64

namespace Browser

def top (browser : Browser) : Option Symbol := browser.tree.map (·.top)

def node? (browser : Browser) (id : NodeId) : Option Node := browser.tree.bind (·.node? id)

def parent? (browser : Browser) (id : NodeId) : Option NodeId := browser.tree.bind (·.parent? id)

def path? (browser : Browser) (id : NodeId) : Option String := browser.tree.bind (·.path? id)

def instancesOf (browser : Browser) (definition : Symbol) : List (String × NodeId) :=
  browser.index.instancesOf definition.id

/-- Shows a new top; ids, answers and instances of the previous one are dropped. -/
def select (top : Symbol) : Call Browser Unit := do
  Call.emit (.topSelected top.name top.id)
  Call.modify fun browser => { browser with tree := some (.ofTop top), memo := ∅, index := {} }

/-- Runs a call on the tree on show. -/
def onTree (tree : Tree) (call : Call Elaborator α) : Call Browser α :=
  Call.focus (fun ⟨_, memo, index, scale⟩ =>
      (⟨tree, memo⟩, fun elaborator => ⟨some elaborator.tree, elaborator.memo, index, scale⟩))
    call

/-- The children of a node, or the top if no node is given. -/
def children (lookup : Lookup) (id : Option NodeId) (limit : Option Nat := none) :
    Call Browser (Except BrowseError (List NodeId)) := do
  match ← Call.gets (·.tree) with
  | none => return .error .noTopSelected
  | some tree =>
    match id with
    | none => return .ok [.root]
    | some id =>
      if tree.contains id then .ok <$> onTree tree (Elaborator.expand lookup id limit)
      else return .error (.unknownNode id)

/-- Selects a top and indexes every instance under it. -/
def build (lookup : Lookup) (top : Symbol) (cancelAfter : Option Nat)
    (limit : Option Nat := none) : Call Browser Status := do
  select top
  let scale ← Call.gets (·.scale)
  Call.focus (fun ⟨_, memo, index, scale⟩ =>
      (⟨⟨.ofTop top, memo⟩, index⟩, fun ⟨⟨tree, memo⟩, index⟩ => ⟨some tree, memo, index, scale⟩))
    (Indexer.build lookup scale cancelAfter limit)

/-- The instance of a definition at a path, among the nodes materialized so far. The index is
asked first. -/
def instanceAt (browser : Browser) (definition : Symbol) (path : String) :
    Except BrowseError NodeId :=
  match browser.tree with
  | none => .error .noTopSelected
  | some tree =>
    match browser.index.reveal definition.id path with
    | some id => .ok id
    | none =>
      match tree.locate path with
      | .error cause => .error (.path cause)
      | .ok id =>
        if (tree.node? id).any (·.instanceOf = some definition.id) then .ok id
        else .error (.path (.notAnInstanceOf path definition.name))

def explain (path : String) (answer : Except BrowseError NodeId) :
    Call Browser (Except BrowseError NodeId) := do
  match answer with
  | .error (.path cause) =>
    Call.emit (cause.event path)
    return answer
  | _ => return answer

def reveal (definition : Symbol) (path : String) : Call Browser (Except BrowseError NodeId) := do
  explain path (← Call.gets (·.instanceAt definition path))

/-- The node at a path under `top`, which is selected first if another top is on show. -/
def resolvePath (lookup : Lookup) (top : Symbol) (path : String) (limit : Option Nat := none) :
    Call Browser (Except BrowseError NodeId) := do
  if (← Call.gets (·.top.map (·.id))) ≠ some top.id then select top
  match ← Call.gets (·.tree) with
  | none => return .error .noTopSelected
  | some tree =>
    return (← onTree tree (Elaborator.resolvePath lookup path limit)).mapError .path

end Browser

end DesignHierarchy

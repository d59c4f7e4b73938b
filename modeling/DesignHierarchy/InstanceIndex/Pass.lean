import DesignHierarchy.InstanceIndex.Agenda
import DesignHierarchy.InstanceIndex.Basic
import DesignHierarchy.InstanceIndex.Estimate
import DesignHierarchy.Scope.Expand

/-! The pass that fills an index: every node under the top, parents before
children and children in declaration order. A node whose definition is open
above it is visited but not entered, so the pass ends on recursive designs too. -/
namespace DesignHierarchy

structure Pass where
  elaborator : Elaborator
  index : InstanceIndex
  estimate : Estimate
  made : Nat := 0

/-- Why the visits stopped. -/
inductive Ending where
  | finished
  | cancelled
  | outOfRoom
deriving DecidableEq, Repr

namespace Pass

def tree (pass : Pass) : Tree := pass.elaborator.tree

/-- A pass is cancelled by its listener, after so many reports. -/
def isCancelled (pass : Pass) (cancelAfter : Option Nat) : Bool :=
  cancelAfter.any (· ≤ pass.made)

def report (step : Estimate → UInt32 × Estimate) (stage : Stage) : Call Pass Unit := do
  let (increment, estimate) ← Call.gets fun pass => step pass.estimate
  Call.modify fun pass => { pass with estimate, made := pass.made + 1 }
  Call.log (.report ⟨increment, stage⟩)

def modifyIndex (f : InstanceIndex → InstanceIndex) : Call Pass Unit :=
  Call.modify fun pass => { pass with index := f pass.index }

def expand (lookup : Lookup) (id : NodeId) (limit : Option Nat := none) :
    Call Pass (List NodeId) :=
  Call.focus (fun ⟨elaborator, index, estimate, made⟩ =>
      (elaborator, fun elaborator => ⟨elaborator, index, estimate, made⟩))
    (Elaborator.expand lookup id limit)

/-- The definitions and nodes to go on with below a node: none if it has no definition, or one
that is on the chain of definitions opened above it. -/
def enter (lookup : Lookup) (chain : List DefId) (id : NodeId) (node : Node) (path : String)
    (limit : Option Nat := none) : Call Pass (List DefId × List NodeId) := do
  match node.definitionId with
  | none => return (chain, [])
  | some definition =>
    if definition ∈ chain then
      modifyIndex (·.truncate id)
      Call.emit (.recursion path)
      return (chain, [])
    else
      let children ← expand lookup id limit
      return (chain ++ [definition], children)

/-- One visit, which ends with a report and gives way to the surroundings. -/
def visit (lookup : Lookup) (chain : List DefId) (id : NodeId) (node : Node)
    (limit : Option Nat := none) : Call Pass (List DefId × List NodeId) := do
  let path ← Call.gets fun pass => (pass.tree.path? id).getD ""
  modifyIndex (·.visit id node path)
  let below ← enter lookup chain id node path limit
  report Estimate.advance (.visiting path)
  Call.pause
  return below

/-- One turn for the node that was taken from the stack: its visit, after the path was cut back
to its depth. There is no answer once the pass is cancelled. -/
def turn (lookup : Lookup) (cancelAfter limit : Option Nat) (path : List DefId) (id : NodeId)
    (depth : Nat) : Call Pass (Option (List DefId × List NodeId)) := do
  if ← Call.gets (·.isCancelled cancelAfter) then return none
  else
    match ← Call.gets (·.tree.node? id) with
    | none => return some (path, [])
    | some node => some <$> visit lookup (path.take depth) id node limit

/-- Takes nodes from the stack until it is empty. The path holds the definitions that were opened
on the way to the node visited last; nodes `room` levels deep are not visited. -/
def loop (lookup : Lookup) (cancelAfter limit : Option Nat) (room : Nat)
    (stack : Array (NodeId × Nat)) (path : List DefId) : Call Pass Ending :=
  match _ : stack.back? with
  | none => return .finished
  | some (id, depth) =>
    if _ : depth < room then do
      match ← turn lookup cancelAfter limit path id depth with
      | none => return .cancelled
      | some (path, children) =>
        loop lookup cancelAfter limit room (Agenda.extend stack.pop (depth + 1) children) path
    else return .outOfRoom
termination_by (⟨stack⟩ : Agenda room)
decreasing_by exact Agenda.shrinks_pop ‹_› ‹_› children

def conclude (status : Status) (stage : Stage) : Call Pass Status := do
  modifyIndex ({ · with status })
  report Estimate.finish stage
  Call.emit (← Call.gets fun pass => .indexed stage pass.tree.top.name pass.index.tally)
  return status

/-- One level for every symbol that can be a definition here, and one for the top: each level
opens a definition that was not open, so a pass never needs more. -/
def room (lookup : Lookup) (elaborator : Elaborator) : Nat :=
  (Symbol.walkAll (lookup.pool ++ elaborator.memo.values.filterMap id ++
    elaborator.tree.definitions)).length + 1

def start (elaborator : Elaborator) (scale : UInt32) : Pass where
  elaborator := elaborator
  index := .opened elaborator.tree.top
  estimate := .start scale

def body (lookup : Lookup) (cancelAfter : Option Nat) (limit : Option Nat := none) :
    Call Pass Status := do
  let levels ← Call.gets fun pass => room lookup pass.elaborator
  match ← loop lookup cancelAfter limit levels #[(.root, 0)] [] with
  | .finished => conclude .complete .complete
  | .cancelled => conclude .cancelled .cancelled
  | .outOfRoom => return .inProgress

end Pass

/-- An index together with the hierarchy it is built from. -/
structure Indexer where
  elaborator : Elaborator
  index : InstanceIndex := {}

namespace Indexer

def build (lookup : Lookup) (scale : UInt32) (cancelAfter : Option Nat)
    (limit : Option Nat := none) : Call Indexer Status :=
  Call.focus (fun indexer =>
      (Pass.start indexer.elaborator scale, fun pass => ⟨pass.elaborator, pass.index⟩))
    (Pass.body lookup cancelAfter limit)

end Indexer

end DesignHierarchy

import DesignHierarchy.Memo
import DesignHierarchy.Scope.Tree

/-! Growing a hierarchy by one level. Browsing, path resolution and indexing all
go through `expand`, so they agree on which children there are and in which
order. Only the number of nodes may be limited; where no limit is given, ids never
run out. -/
namespace DesignHierarchy

structure Elaborator where
  tree : Tree
  memo : Memo := ∅

namespace Elaborator

def resolveInstance (lookup : Lookup) (symbol : Symbol) : Call Elaborator (Option Symbol) :=
  Call.focus (fun ⟨tree, memo⟩ => (memo, fun memo => ⟨tree, memo⟩))
    (Memo.resolveInstance lookup symbol)

/-- The node for a child of the scope `id`. -/
def elaborate (lookup : Lookup) (id : NodeId) (child : Symbol) : Call Elaborator Node := do
  match child.kind with
  | .block => return ⟨child, some child, some id, .block⟩
  | .inst =>
    let definition ← resolveInstance lookup child
    let opened ← Call.gets (·.tree.openDefinitions id)
    let recursive := definition.any fun symbol => symbol.id ∈ opened
    return ⟨child, definition, some id, .inst child.typeRef recursive⟩
  | _ => return ⟨child, none, some id, .leaf⟩

/-- Adds a node for each symbol of a definition; those added before an interruption stay. The
symbols left when the nodes are at their limit are dropped. -/
def addChildren (lookup : Lookup) (id : NodeId) (definition : String) (symbols : List Symbol)
    (limit : Option Nat := none) : Call Elaborator (List NodeId) := do
  match symbols with
  | [] => return []
  | child :: rest =>
    let node ← elaborate lookup id child
    match ← Call.gets (·.tree.nextId? limit) with
    | none =>
      Call.emit (.nodeLimit definition)
      return []
    | some fresh =>
      Call.modify fun elaborator => { elaborator with tree := elaborator.tree.add node }
      let others ← addChildren lookup id definition rest limit
      return fresh :: others

def record (id : NodeId) (children : List NodeId) : Call Elaborator Unit :=
  Call.modify fun elaborator => { elaborator with tree := elaborator.tree.record id children }

/-- The children of a node, found at most once. Ids of other trees have none. -/
def expand (lookup : Lookup) (id : NodeId) (limit : Option Nat := none) :
    Call Elaborator (List NodeId) := do
  match ← Call.gets (·.tree.slot? id) with
  | none =>
    Call.emit (.foreignNode id)
    return []
  | some ⟨_, some children⟩ => return children
  | some ⟨node, none⟩ =>
    match node.definition with
    | none =>
      record id []
      return []
    | some definition =>
      let children ← addChildren lookup id definition.name definition.shown limit
      Call.emit (.expanded definition.name children.length)
      record id children
      return children

end Elaborator

end DesignHierarchy

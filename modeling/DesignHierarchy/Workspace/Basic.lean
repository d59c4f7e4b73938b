import DesignHierarchy.Call
import DesignHierarchy.Workspace.Lookup
import DesignHierarchy.Workspace.Store

/-! A workspace: the loaded files, with symbols that stand in for what the files
declare under some names. -/
namespace DesignHierarchy

structure Workspace where
  store : Store := {}
  /-- These win over the files. -/
  substitutes : Table String Symbol := ∅
  suspends : Bool := false

namespace Workspace

def find (workspace : Workspace) (name : String) : Option Symbol :=
  (workspace.substitutes.get? name).or (workspace.store.lookup name)

def lookup (workspace : Workspace) : Lookup where
  find := workspace.find
  suspends := workspace.suspends
  pool := workspace.substitutes.values ++ workspace.store.byName.values.flatten
  mem_pool := by
    intro name symbol h
    rw [List.mem_append]
    rcases Option.or_eq_some_iff.1 h with h | ⟨-, h⟩
    · exact Or.inl (Table.mem_values_of_get? h)
    · exact Or.inr (Store.mem_of_lookup h)

def load (path : SourcePath) (decls : List Decl) : Call Workspace FileId := do
  let file ← Call.gets (·.store.idFor path)
  Call.emit (.loaded path file (Decl.countAll decls))
  Call.modify fun workspace => { workspace with store := workspace.store.load path decls }
  return file

/-- Removes a file; the answer is the id it had, if it was loaded. -/
def unload (path : SourcePath) : Call Workspace (Option FileId) := do
  let file ← Call.gets (·.store.fileId? path)
  Call.modify fun workspace => { workspace with store := workspace.store.unload path }
  return file

/-- Lets a symbol answer to a name, whatever the files declare. -/
def substitute (name : String) (symbol : Symbol) : Call Workspace Unit :=
  Call.modify fun workspace =>
    { workspace with substitutes := workspace.substitutes.insert name symbol }

def setSuspends (on : Bool) : Call Workspace Unit :=
  Call.modify fun workspace => { workspace with suspends := on }

end Workspace

end DesignHierarchy

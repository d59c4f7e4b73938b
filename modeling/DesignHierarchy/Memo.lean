import DesignHierarchy.Table
import DesignHierarchy.Call
import DesignHierarchy.Workspace.Lookup

/-! Remembered answers to "which definition has this name". Misses are
remembered too, so that a name is looked up once however many instances use it. -/
namespace DesignHierarchy

abbrev Memo := Table String (Option Symbol)

namespace Memo

def resolution (name : String) : Option Symbol → Event
  | some symbol => .resolved name symbol.id symbol.kind
  | none => .unresolved name

/-- Answers from memory, or asks the workspace; a question abandoned on the way is counted
but leaves nothing to remember. -/
def resolve (lookup : Lookup) (name : String) : Call Memo (Option Symbol) := do
  match ← Call.gets (·.get? name) with
  | some answer => return answer
  | none =>
    Call.log (.asked name)
    if lookup.suspends then Call.pause
    let answer := lookup.definition? name
    Call.emit (resolution name answer)
    Call.modify (·.insert name answer)
    return answer

/-- An instance written without a type is unresolved, and nobody is asked. -/
def resolveInstance (lookup : Lookup) (symbol : Symbol) : Call Memo (Option Symbol) :=
  match symbol.typeRef with
  | some name => resolve lookup name
  | none => return none

theorem run_resolve_of_get? {lookup : Lookup} {name : String} {memo : Memo}
    {answer : Option Symbol} (h : memo.get? name = some answer) :
    (resolve lookup name).run memo = .done memo [] answer := by
  simp [resolve, h]

theorem run_resolve_of_get?_none {lookup : Lookup} {name : String} {memo : Memo}
    (h : memo.get? name = none) :
    let answer := lookup.definition? name
    let run := (resolve lookup name).run memo
    run.pauses = (if lookup.suspends then [⟨memo, [.asked name]⟩] else []) ∧
      run.journal = [.asked name, .event (resolution name answer)] ∧
      run.state = memo.insert name answer ∧ run.value = answer := by
  cases hs : lookup.suspends <;>
    simp [resolve, h, hs, Call.emit, Call.run_map, Checkpoint.after, Run.pauses, Run.journal,
      Run.state, Run.value, Run.after]

end Memo

end DesignHierarchy

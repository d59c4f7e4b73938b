import DesignHierarchy.Ident
import DesignHierarchy.Source.Path
import DesignHierarchy.Symbol.Kind

/-! What a call lets its surroundings see while it runs: the names it looked
up, the events it logged and the progress it reported, in order. -/
namespace DesignHierarchy

inductive Level where
  | trace
  | debug
  | info
  | warn
deriving DecidableEq, Repr

def Level.label : Level → String
  | .trace => "TRACE"
  | .debug => "DEBUG"
  | .info => "INFO"
  | .warn => "WARN"

/-- What a progress report says about the pass. -/
inductive Stage where
  | visiting (path : String)
  | complete
  | cancelled
deriving DecidableEq, Repr

def Stage.message : Stage → String
  | .visiting path => "Indexing " ++ path
  | .complete => "Indexing complete"
  | .cancelled => "Indexing cancelled"

/-- A step of progress in whole percents. -/
structure Report where
  increment : UInt32
  stage : Stage
deriving DecidableEq, Repr

structure Tally where
  visited : Nat
  definitions : Nat
  instances : Nat
  recursive : Nat
deriving DecidableEq, Repr

inductive Event where
  | loaded (path : SourcePath) (file : FileId) (symbols : Nat)
  | resolved (name : String) (id : DefId) (kind : Kind)
  | unresolved (name : String)
  | foreignNode (id : NodeId)
  | nodeLimit (definition : String)
  | expanded (definition : String) (nodes : Nat)
  | recursion (path : String)
  | indexed (stage : Stage) (top : String) (tally : Tally)
  | pathMissed (path segment parent : String)
  | topSelected (name : String) (id : DefId)
  | notAnInstance (path definition : String)
deriving DecidableEq, Repr

namespace Event

def level : Event → Level
  | .loaded .. | .resolved .. | .expanded .. => .trace
  | .unresolved .. | .foreignNode .. | .pathMissed .. | .topSelected .. | .notAnInstance .. => .debug
  | .indexed .. => .info
  | .recursion .. | .nodeLimit .. => .warn

private def quoted (text : String) : String := "'" ++ text ++ "'"

def message : Event → String
  | .loaded path file symbols =>
    "[INDEX] Loaded " ++ path.text ++ " (" ++ file.label ++ "): " ++ toString symbols ++ " symbols"
  | .resolved name id kind =>
    "[RESOLVE] " ++ quoted name ++ " -> " ++ id.tag ++ " (" ++ kind.label ++ ")"
  | .unresolved name => "[RESOLVE] " ++ quoted name ++ " has no definition in the workspace"
  | .foreignNode id => "[SCOPE] Ignoring expand of foreign node " ++ id.tag
  | .nodeLimit definition =>
    "[SCOPE] Node limit reached expanding " ++ quoted definition ++ ", remaining children dropped"
  | .expanded definition nodes =>
    "[SCOPE] Expanded " ++ quoted definition ++ " into " ++ toString nodes ++ " nodes"
  | .recursion path =>
    "[REVERSE_INDEX] Recursive instantiation at " ++ quoted path ++ ", not descending"
  | .indexed stage top tally =>
    "[REVERSE_INDEX] " ++ stage.message ++ " " ++ quoted top ++ ": " ++ toString tally.visited ++
      " nodes visited, " ++ toString tally.definitions ++ " definitions, " ++
      toString tally.instances ++ " instances, " ++ toString tally.recursive ++ " recursive"
  | .pathMissed path segment parent =>
    "[PATH] " ++ quoted path ++ ": no instance " ++ quoted segment ++ " in " ++ quoted parent
  | .topSelected name id => "[HOST] Top set to " ++ quoted name ++ " (" ++ id.tag ++ ")"
  | .notAnInstance path definition =>
    "[HOST] " ++ quoted path ++ " is not an instance of " ++ quoted definition

def line (event : Event) : String := event.level.label ++ " " ++ event.message

end Event

inductive Entry where
  /-- The workspace was asked for a name. -/
  | asked (name : String)
  | event (event : Event)
  | report (report : Report)
deriving DecidableEq, Repr

abbrev Journal := List Entry

namespace Journal

def asked (journal : Journal) : List String :=
  journal.filterMap fun | .asked name => some name | _ => none

def events (journal : Journal) : List Event :=
  journal.filterMap fun | .event event => some event | _ => none

def reports (journal : Journal) : List Report :=
  journal.filterMap fun | .report report => some report | _ => none

@[simp] theorem asked_append (a b : Journal) : asked (a ++ b) = asked a ++ asked b := by
  simp [asked]

@[simp] theorem events_append (a b : Journal) : events (a ++ b) = events a ++ events b := by
  simp [events]

@[simp] theorem reports_append (a b : Journal) : reports (a ++ b) = reports a ++ reports b := by
  simp [reports]

end Journal

end DesignHierarchy

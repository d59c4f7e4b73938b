/-! What a declaration declares, with the two properties of a kind that shape
a hierarchy. -/
namespace DesignHierarchy

inductive Kind where
  | module
  | interface
  | package
  | inst
  | block
  | port
  | register
  | wire
  | parameter
  | constant
  | enum
  | typedef
  | assert
  | function
  | task
  | other
deriving DecidableEq, Repr

namespace Kind

/-- Excluded kinds never become nodes of a hierarchy. -/
def isExcluded : Kind → Bool
  | .enum | .typedef | .assert | .function => true
  | _ => false

/-- The kinds that the type written at an instance may name. -/
def isDefinition : Kind → Bool
  | .module | .interface => true
  | _ => false

def label : Kind → String
  | .module => "module"
  | .interface => "interface"
  | .package => "package"
  | .inst => "instance"
  | .block => "block"
  | .port => "port"
  | .register => "register"
  | .wire => "wire"
  | .parameter => "parameter"
  | .constant => "constant"
  | .enum => "enum"
  | .typedef => "typedef"
  | .assert => "assert"
  | .function => "function"
  | .task => "task"
  | .other => "other"

def all : List Kind :=
  [.module, .interface, .package, .inst, .block, .port, .register, .wire, .parameter,
    .constant, .enum, .typedef, .assert, .function, .task, .other]

def ofLabel? (label : String) : Option Kind :=
  all.find? (·.label = label)

@[simp] theorem ofLabel?_label (kind : Kind) : ofLabel? kind.label = some kind := by
  cases kind <;> decide

end Kind

end DesignHierarchy

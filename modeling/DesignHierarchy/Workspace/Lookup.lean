import DesignHierarchy.Symbol.Basic

/-! The seam between a hierarchy and the workspace it is read from: a source of
symbols by name. It need not answer with definitions only, and it may suspend
its caller while it searches. -/
namespace DesignHierarchy

structure Lookup where
  find : String → Option Symbol
  /-- Each question suspends its caller once. -/
  suspends : Bool := false
  /-- All answers come from a finite stock. -/
  pool : List Symbol
  mem_pool : ∀ {name symbol}, find name = some symbol → symbol ∈ pool

namespace Lookup

/-- The definition an instance of this type elaborates to. -/
def definition? (lookup : Lookup) (name : String) : Option Symbol :=
  (lookup.find name).filter (·.isDefinition)

theorem definition?_mem_pool {lookup : Lookup} {name : String} {symbol : Symbol}
    (h : lookup.definition? name = some symbol) : symbol ∈ lookup.pool :=
  lookup.mem_pool (Option.filter_eq_some_iff.1 h).1

end Lookup

end DesignHierarchy

import DesignHierarchy.Symbol.Basic

/-! Where to go in the source text for a declaration. -/
namespace DesignHierarchy

structure Target where
  file : FileId
  name : String
  kind : Kind
  nameSpan : Span
  fullSpan : Span
deriving DecidableEq, Repr

def Symbol.target (symbol : Symbol) : Target where
  file := symbol.location.file
  name := symbol.name
  kind := symbol.kind
  nameSpan := symbol.location.nameSpan
  fullSpan := symbol.location.fullSpan

end DesignHierarchy

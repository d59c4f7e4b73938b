import DesignHierarchy.Ident

/-! Ways a request about a hierarchy can fail. Unresolved instances, recursion
and cancelled passes are not failures: they are part of the data. -/
namespace DesignHierarchy

inductive PathError where
  | segmentNotFound (segment parent : String)
  /-- The path, as it was given, leads to something else than an instance of `definition`. -/
  | notAnInstanceOf (path definition : String)
deriving DecidableEq, Repr

namespace PathError

def message : PathError → String
  | .segmentNotFound segment parent => "instance `" ++ segment ++ "` not found in `" ++ parent ++ "`"
  | .notAnInstanceOf path definition =>
    "`" ++ path ++ "` is not an instance of `" ++ definition ++ "`"

end PathError

inductive BrowseError where
  | noTopSelected
  /-- The id is stale: it belongs to no node of the tree shown now. -/
  | unknownNode (id : NodeId)
  | path (cause : PathError)
deriving DecidableEq, Repr

namespace BrowseError

def message : BrowseError → String
  | .noTopSelected => "no top module selected"
  | .unknownNode id => "scope node " ++ id.label ++ " does not belong to the current hierarchy"
  | .path cause => cause.message

end BrowseError

end DesignHierarchy

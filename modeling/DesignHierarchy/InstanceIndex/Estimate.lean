/-! Progress of a pass whose length is not known beforehand. The estimate tends
to 99 percent, and the end of the pass accounts for the rest, so that the
increments always add up to 100. -/
namespace DesignHierarchy

structure Estimate where
  /-- The number of visits at which the estimate is about half. -/
  scale : UInt64
  visited : UInt64 := 0
  /-- The sum of the increments given out. -/
  reported : UInt32 := 0
deriving DecidableEq, Repr

namespace Estimate

def start (scale : UInt32) : Estimate := { scale := scale.toUInt64 }

def percent (visited scale : UInt64) : UInt32 :=
  (99 * visited / (visited + scale)).toUInt32

/-- Counts one visit; the increment never takes anything back. -/
def advance (estimate : Estimate) : UInt32 × Estimate :=
  let visited := estimate.visited + 1
  let reached := percent visited estimate.scale
  let increment := if reached < estimate.reported then 0 else reached - estimate.reported
  (increment, { estimate with visited, reported := estimate.reported + increment })

/-- Accounts for all that is left. -/
def finish (estimate : Estimate) : UInt32 × Estimate :=
  (100 - estimate.reported, { estimate with reported := 100 })

end Estimate

end DesignHierarchy

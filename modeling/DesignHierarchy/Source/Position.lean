/-! Places in a source text. Positions are read line first, so a span covers
whole lines between its two ends, and both ends belong to it. -/
namespace DesignHierarchy

structure Position where
  line : Nat := 0
  column : Nat := 0
deriving DecidableEq, Repr

namespace Position

/-- The line decides, and the column only within one line. -/
def compare (p q : Position) : Ordering :=
  (Ord.compare p.line q.line).then (Ord.compare p.column q.column)

/-- At or before, in reading order. -/
def AtOrBefore (p q : Position) : Prop :=
  p.line < q.line ∨ p.line = q.line ∧ p.column ≤ q.column

instance (p q : Position) : Decidable (p.AtOrBefore q) :=
  inferInstanceAs (Decidable (_ ∨ _))

end Position

structure Span where
  start : Position := {}
  stop : Position := {}
deriving DecidableEq, Repr

namespace Span

def Contains (span : Span) (p : Position) : Prop :=
  span.start.AtOrBefore p ∧ p.AtOrBefore span.stop

instance (span : Span) (p : Position) : Decidable (span.Contains p) :=
  inferInstanceAs (Decidable (_ ∧ _))

end Span

end DesignHierarchy

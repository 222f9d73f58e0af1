/-
TexTree/Location.lean

Where a node stands in the source: the points at which it starts and stops.
A point is given twice, as an offset and as line and column, and the two are
not required to agree.  All numbers are words of 64 bits.
-/

namespace TexTree

/-- A point in the source: an offset counted from 0, a line and a column counted
from 1. -/
structure Point where
  offset : Int64 := 0
  line : Int64 := 0
  column : Int64 := 0
  deriving DecidableEq, Inhabited

/-- A span of the source. -/
structure Location where
  start : Point := {}
  stop : Point := {}
  deriving DecidableEq, Inhabited

end TexTree

/-
TexTree/Cursor.lean

Places in the source, and when a place lies inside a span.  A cursor is given by
line and column, by offset, or by both; it lies inside a span when one of them
does.  The two ends of a span do not count as inside unless the cursor says so.

    c.isIn loc       the cursor lies inside the location; a node without a
                     location contains no cursor
-/
import TexTree.Location

namespace TexTree

/-- A place in the source. -/
structure Cursor where
  lineColumn : Option (Int64 × Int64) := none
  offset : Option Int64 := none
  includeStart : Bool := false
  includeEnd : Bool := false
  deriving DecidableEq

namespace Cursor

/-- The cursor at a line and a column. -/
def atLineColumn (line column : Int64) : Cursor := { lineColumn := some (line, column) }

/-- The cursor at an offset. -/
def atOffset (offset : Int64) : Cursor := { offset := some offset }

/-- The cursor, with an offset beside its line and column. -/
def withOffset (c : Cursor) (offset : Int64) : Cursor := { c with offset := some offset }

/-- The cursor, with a choice of which ends of a span count as inside. -/
def inclusive (c : Cursor) (start stop : Bool) : Cursor :=
  { c with includeStart := start, includeEnd := stop }

/-! ### Comparisons -/

/-- How two words compare. -/
def compareWord (a b : Int64) : Ordering := if a < b then .lt else if b < a then .gt else .eq

/-- How a point compares with a line and a column: by line, then by column. -/
def compareLineColumn (p : Point) (line column : Int64) : Ordering :=
  if p.line = line then compareWord p.column column else compareWord p.line line

/-- The cursor lies inside a span whose ends compare with it as given. -/
def within (c : Cursor) (start stop : Ordering) : Bool :=
  (start == .lt || start == .eq && c.includeStart) && (stop == .gt || stop == .eq && c.includeEnd)

/-- The cursor's line and column lie inside the span. -/
def lineColumnIn (c : Cursor) (l : Location) : Bool :=
  match c.lineColumn with
  | some (line, column) =>
    c.within (compareLineColumn l.start line column) (compareLineColumn l.stop line column)
  | none => false

/-- The cursor's offset lies inside the span. -/
def offsetIn (c : Cursor) (l : Location) : Bool :=
  match c.offset with
  | some o => c.within (compareWord l.start.offset o) (compareWord l.stop.offset o)
  | none => false

/-- The cursor lies inside the location. -/
def isIn (c : Cursor) : Option Location → Bool
  | some l => c.lineColumnIn l || c.offsetIn l
  | none => false

@[simp] theorem isIn_none (c : Cursor) : c.isIn none = false := rfl

/-- The cursor without a place lies nowhere. -/
theorem isIn_empty (loc : Option Location) (start stop : Bool) :
    (inclusive {} start stop).isIn loc = false := by
  cases loc <;> rfl

end Cursor

end TexTree

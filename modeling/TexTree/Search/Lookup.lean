/-
TexTree/Search/Lookup.lean

The node at a cursor.  From each list of siblings the first that contains the
cursor is taken, and the search goes on among its children; the others are not
looked at again.

    lookupFrom c start ns      the innermost node reached from ns, or start when
                               no node of ns contains the cursor
-/
import TexTree.Cursor
import TexTree.Search.Walk

namespace TexTree

open Node (sizeList sizeList_children_lt sizeList_tail_lt)

/-- The innermost node at the cursor, among nodes that stand below `start`. -/
def lookupFrom (c : Cursor) (start : Option Found) : List Node → Option Found
  | [] => start
  | n :: ns =>
    if c.isIn n.loc then lookupFrom c (some ⟨n, Found.chain start⟩) n.children
    else lookupFrom c start ns
termination_by ns => sizeList ns
decreasing_by
  · exact sizeList_children_lt n ns
  · exact sizeList_tail_lt n ns

/-- The innermost node at the cursor. -/
def lookup (c : Cursor) (ns : List Node) : Option Found := lookupFrom c none ns

/-! ### One sibling at a time -/

@[simp] theorem lookupFrom_nil (c : Cursor) (start : Option Found) :
    lookupFrom c start [] = start := by rw [lookupFrom]

theorem lookupFrom_cons_of_isIn {c : Cursor} {n : Node} (h : c.isIn n.loc) (start : Option Found)
    (ns : List Node) :
    lookupFrom c start (n :: ns) = lookupFrom c (some ⟨n, Found.chain start⟩) n.children := by
  rw [lookupFrom, if_pos h]

theorem lookupFrom_cons_of_not {c : Cursor} {n : Node} (h : c.isIn n.loc = false)
    (start : Option Found) (ns : List Node) :
    lookupFrom c start (n :: ns) = lookupFrom c start ns := by
  rw [lookupFrom, if_neg (by simp [h])]

/-- When no sibling contains the cursor, the search ends where it started. -/
theorem lookupFrom_of_forall {c : Cursor} {ns : List Node} (h : ∀ n ∈ ns, c.isIn n.loc = false)
    (start : Option Found) : lookupFrom c start ns = start := by
  induction ns with
  | nil => exact lookupFrom_nil c start
  | cons n ns ih =>
    rw [lookupFrom_cons_of_not (h n (by simp))]
    exact ih fun m hm => h m (by simp [hm])

end TexTree

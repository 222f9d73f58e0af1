/-
TexTree/Search/Walk.lean

All nodes of a forest, each with the nodes above it.

    walk as ns         every node of the forest ns in pre-order, the forest
                       standing below the chain as
    findAll p ns       the ones among them that satisfy p

A chain of nodes is a list, the closest node first.
-/
import TexTree.Predicate

namespace TexTree

open Node (sizeList sizeList_children_lt sizeList_tail_lt)

/-- A node and the nodes above it, the closest first. -/
structure Found where
  node : Node
  ancestors : List Node
  deriving Inhabited

namespace Found

/-- How many nodes are above the node. -/
def depth (f : Found) : Nat := f.ancestors.length

/-- The node above the node. -/
def parent? (f : Found) : Option Found :=
  match f.ancestors with
  | [] => none
  | n :: above => some ⟨n, above⟩

/-- The chain of nodes that ends at a found node, if there is one. -/
def chain : Option Found → List Node
  | none => []
  | some f => f.node :: f.ancestors

end Found

/-- Every node of a forest that stands below a chain of nodes, in pre-order. -/
def walk (above : List Node) : List Node → List Found
  | [] => []
  | n :: ns => ⟨n, above⟩ :: (walk (n :: above) n.children ++ walk above ns)
termination_by ns => sizeList ns
decreasing_by
  · exact sizeList_children_lt n ns
  · exact sizeList_tail_lt n ns

/-- The nodes of a forest that satisfy a condition, in pre-order. -/
def findAll (p : Predicate) (ns : List Node) : List Found := (walk [] ns).filter fun f => p f.node

/-! ### What a walk is made of -/

@[simp] theorem walk_nil (above : List Node) : walk above [] = [] := by rw [walk]

@[simp] theorem walk_cons (above : List Node) (n : Node) (ns : List Node) :
    walk above (n :: ns) = ⟨n, above⟩ :: (walk (n :: above) n.children ++ walk above ns) := by
  rw [walk]

@[simp] theorem walk_append (above ns ms : List Node) :
    walk above (ns ++ ms) = walk above ns ++ walk above ms := by
  induction ns with
  | nil => simp
  | cons n ns ih => simp [ih]

/-- A walk visits as many nodes as the forest has. -/
theorem length_walk (above ns : List Node) : (walk above ns).length = sizeList ns := by
  fun_induction walk above ns with
  | case1 => simp [sizeList]
  | case2 above n ns ih₁ ih₂ => simp [sizeList, Node.size_eq, ih₁, ih₂]; omega

end TexTree

/-
TexTree/Search/Pattern.lean

Patterns: a chain of conditions, each on a child of the node that satisfies the
one before.

    p.search deep ns      the nodes that satisfy the last condition, each with
                          the nodes that satisfy the ones before it

The first condition is put to the given nodes only, or to every node below them
as well (`deep`).
-/
import TexTree.Search.Walk

namespace TexTree

/-- A chain of conditions on a node, its parent, and so on up. -/
inductive Pattern where
  | root (p : Predicate)
  | child (outer : Pattern) (p : Predicate)

/-- A node that a pattern has found, and the nodes that its outer patterns have
found for it, the closest first. -/
structure Match where
  node : Node
  parents : List Node

namespace Pattern

/-- The children of a match that satisfy a condition. -/
def extend (p : Predicate) (m : Match) : List Match :=
  (m.node.children.filter p).map fun n => ⟨n, m.node :: m.parents⟩

/-- What a pattern finds in a forest.  Matches of the outer pattern come in their
order, and for each of them its children in theirs. -/
def search (deep : Bool) (ns : List Node) : Pattern → List Match
  | .root p =>
    if deep then (findAll p ns).map fun f => ⟨f.node, []⟩ else (ns.filter p).map fun n => ⟨n, []⟩
  | .child outer p => (search deep ns outer).flatMap (extend p)

/-- What a pattern finds in two forests side by side is what it finds in each. -/
theorem search_append (deep : Bool) (ns ms : List Node) (p : Pattern) :
    p.search deep (ns ++ ms) = p.search deep ns ++ p.search deep ms := by
  induction p with
  | root p => cases deep <;> simp [search, findAll]
  | child outer p ih => simp [search, ih]

end Pattern

end TexTree

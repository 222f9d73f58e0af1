/-
TexTree/Navigation.lean

Moving about in a tree.  At any time there is a current node, or none; a move
makes another node the current one.
-/
import TexTree.Search.Lookup

namespace TexTree

/-- A move. -/
inductive Move where
  /-- To the node at a cursor. -/
  | goto (c : Cursor)
  /-- To the node at a cursor, below the current node. -/
  | descend (c : Cursor)
  /-- To the parent. -/
  | up
  /-- To the node of the given number, among those of a scope that satisfy a
  condition: the children of the current node, or the whole tree. -/
  | pick (inside : Bool) (p : Predicate) (index : Nat)

/-- The nodes that a search looks at: the children of the current node if it is to
stay inside and there is one, and otherwise the whole tree. -/
def scope (tree : List Node) (current : Option Found) (inside : Bool) : List Node :=
  match inside, current with
  | true, some f => f.node.children
  | _, _ => tree

/-- The same nodes as a list that may be missing: a node without children has no
list of them. -/
def scopeList (tree : Option (List Node)) (current : Option Found) (inside : Bool) :
    Option (List Node) :=
  match inside, current with
  | true, some f => if f.node.children.isEmpty then none else some f.node.children
  | _, _ => tree

namespace Move

/-- The current node after a move. -/
def apply (tree : List Node) (current : Option Found) : Move → Option Found
  | .goto c => lookup c tree
  | .descend c => lookupFrom c current (scope tree current true)
  | .up => current.bind Found.parent?
  | .pick inside p index => (findAll p (scope tree current inside))[index]?

/-- The current node after a list of moves, there being none at the start. -/
def run (tree : List Node) (moves : List Move) : Option Found :=
  moves.foldl (apply tree) none

end Move

/-- The two ways to give a scope agree on its nodes. -/
theorem getD_scopeList (tree : Option (List Node)) (current : Option Found) (inside : Bool) :
    (scopeList tree current inside).getD [] = scope (tree.getD []) current inside := by
  cases inside <;> cases current <;> simp only [scopeList, scope]
  split <;> simp_all

end TexTree

/-
TexTree/Search/Window.lean

Runs of neighbouring siblings that satisfy a list of conditions, one condition
for each node of the run.

    windows ps ns      every run in the forest ns, at any depth, in the order of
                       its first node

Siblings are the nodes of the forest and the children of any node.
-/
import TexTree.Search.Walk

namespace TexTree

open Node (sizeList sizeList_children_lt sizeList_tail_lt)

/-- A run of siblings, and the nodes above them, the closest first. -/
structure Window where
  nodes : List Node
  ancestors : List Node

/-- The list starts with nodes that satisfy the conditions one by one. -/
def startsWith : List Predicate → List Node → Bool
  | [], _ => true
  | _ :: _, [] => false
  | p :: ps, n :: ns => p n && startsWith ps ns

/-- The run at the start of a list of siblings, if there is one. -/
def windowAt (ps : List Predicate) (above ns : List Node) : List Window :=
  if startsWith ps ns then [⟨ns.take ps.length, above⟩] else []

/-- The runs in a forest that stands below a chain of nodes. -/
def windowsBelow (ps : List Predicate) (above : List Node) : List Node → List Window
  | [] => []
  | n :: ns =>
    windowAt ps above (n :: ns) ++
      (windowsBelow ps (n :: above) n.children ++ windowsBelow ps above ns)
termination_by ns => sizeList ns
decreasing_by
  · exact sizeList_children_lt n ns
  · exact sizeList_tail_lt n ns

/-- The runs in a forest.  Without conditions there are none. -/
def windows (ps : List Predicate) (ns : List Node) : List Window :=
  if ps.isEmpty then [] else windowsBelow ps [] ns

/-- Runs of one node. -/
def singles (p : Predicate) (ns : List Node) : List Found :=
  (windows [p] ns).filterMap fun w =>
    match w.nodes with
    | [n] => some ⟨n, w.ancestors⟩
    | _ => none

/-- Two neighbouring siblings, and the nodes above them, the closest first. -/
structure Pair where
  first : Node
  second : Node
  ancestors : List Node

/-- Runs of two nodes. -/
def pairs (p q : Predicate) (ns : List Node) : List Pair :=
  (windows [p, q] ns).filterMap fun w =>
    match w.nodes with
    | [n, m] => some ⟨n, m, w.ancestors⟩
    | _ => none

/-! ### What the runs are made of -/

@[simp] theorem windowsBelow_nil (ps : List Predicate) (above : List Node) :
    windowsBelow ps above [] = [] := by rw [windowsBelow]

theorem windowsBelow_cons (ps : List Predicate) (above : List Node) (n : Node) (ns : List Node) :
    windowsBelow ps above (n :: ns) =
      windowAt ps above (n :: ns) ++
        (windowsBelow ps (n :: above) n.children ++ windowsBelow ps above ns) := by
  rw [windowsBelow]

/-- A run has as many nodes as there are conditions. -/
theorem length_take_of_startsWith {ps : List Predicate} {ns : List Node}
    (h : startsWith ps ns) : (ns.take ps.length).length = ps.length := by
  fun_induction startsWith ps ns with
  | case1 => simp
  | case2 => contradiction
  | case3 p ps n ns ih => simp_all

end TexTree

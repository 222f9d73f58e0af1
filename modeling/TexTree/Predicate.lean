/-
TexTree/Predicate.lean

Conditions on nodes, and how they are put together.  A condition looks at one
node at a time; it sees what is below the node but not what is above it.
-/
import TexTree.Node

namespace TexTree

/-- A condition on nodes. -/
abbrev Predicate := Node → Bool

namespace Predicate

/-- Nodes of one kind, or of any kind, that satisfy a condition, or none. -/
def is (kind : Option Kind) (p : Option Predicate) : Predicate := fun n =>
  kind.all (· == n.kind) && p.all (· n)

/-- Nodes of one of the kinds. -/
def ofKind (kinds : List Kind) : Predicate := fun n => kinds.contains n.kind

/-- Nodes that do not satisfy the condition. -/
def not (p : Predicate) : Predicate := fun n => !p n

/-- Nodes that satisfy all the conditions. -/
def and (ps : List Predicate) : Predicate := fun n => ps.all (· n)

/-- Nodes that satisfy one of the conditions. -/
def or (ps : List Predicate) : Predicate := fun n => ps.any (· n)

/-- Commands with one of the names. -/
def commandNamed (names : List String) : Predicate
  | .command name _ _ => names.contains name
  | _ => false

/-- Environments of any sort with one of the names. -/
def environmentNamed (names : List String) : Predicate := fun n =>
  n.environmentName?.any names.contains

/-- The given symbol of a formula. -/
def mathCharOf (symbol : String) : Predicate
  | .mathChar content _ => content == symbol
  | _ => false

/-- With neither a kind nor a condition, every node is accepted. -/
@[simp] theorem is_none_none : is none none = fun _ => true := rfl

end Predicate

end TexTree

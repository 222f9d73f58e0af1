/-
TexTree/PlainText.lean

The text of a forest without its markup: the contents of all text nodes, at any
depth and in pre-order, with a space between them.  Symbols of formulas and text
that is not interpreted are not part of it.
-/
import TexTree.Search.Walk

namespace TexTree

/-- The content of a text node. -/
def Node.text? : Node → Option String
  | .text content _ => some content
  | _ => none

/-- The contents of the text nodes of a forest. -/
def words (ns : List Node) : List String := (walk [] ns).filterMap fun f => f.node.text?

/-- The text of a forest. -/
def plainText (ns : List Node) : String := " ".intercalate (words ns)

end TexTree

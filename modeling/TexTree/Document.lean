/-
TexTree/Document.lean

A document: the nodes of the source and the comments, which are kept aside.
Either the whole source has been read, or only its preamble, and then the rest
of the source is kept as it stands.
-/
import TexTree.Node

namespace TexTree

/-- A comment of the source. -/
structure Comment where
  content : String := ""
  loc : Option Location := none
  deriving DecidableEq, Inhabited

/-- A document. -/
inductive Document where
  | root (content : Option (List Node)) (comments : List Comment)
  | preamble (content : Option (List Node)) (comments : List Comment) (rest : String)
  deriving Inhabited

/-- The kinds of document. -/
inductive DocumentKind where
  | root
  | preamble
  deriving DecidableEq, Inhabited

namespace DocumentKind

/-- The name of a kind of document. -/
def name : DocumentKind → String
  | .root => "ast.root"
  | .preamble => "ast.preamble"

/-- The kind of document with the given name. -/
def ofName? (s : String) : Option DocumentKind :=
  [DocumentKind.root, .preamble].find? fun k => k.name == s

@[simp] theorem ofName?_name (k : DocumentKind) : ofName? k.name = some k := by
  cases k <;> decide

end DocumentKind

namespace Document

/-- The kind of a document. -/
def kind : Document → DocumentKind
  | .root .. => .root
  | .preamble .. => .preamble

/-- The nodes of a document. -/
def content : Document → Option (List Node)
  | .root content _ => content
  | .preamble content _ _ => content

/-- The comments of a document. -/
def comments : Document → List Comment
  | .root _ comments => comments
  | .preamble _ comments _ => comments

/-- What has not been read of the source, when only the preamble has. -/
def rest? : Document → Option String
  | .root .. => none
  | .preamble _ _ rest => some rest

end Document

end TexTree

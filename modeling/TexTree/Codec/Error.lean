/-
TexTree/Codec/Error.lean

Why a text could not be read as nodes, and where.  An error has a cause and a
path to it, from the outside in; its message names every step of the path.

    unable to decode env node: node #1: unknown node kind "x"

The wording of a fault of the JSON text itself is not this library's to give:
it stands as `<json>`.
-/
import TexTree.Document
import TexTree.Text.Quoted

namespace TexTree

/-- A step on the way to the place of an error. -/
inductive Step where
  /-- Reading the kind of a node. -/
  | nodeKind
  /-- Reading the kind of a document. -/
  | documentKind
  /-- Reading the fields of a node of a kind. -/
  | node (k : Kind)
  /-- Reading the fields of a document of a kind. -/
  | document (k : DocumentKind)
  /-- Reading an element of a list of nodes. -/
  | item (index : Nat)
  deriving DecidableEq

/-- What went wrong. -/
inductive Cause where
  /-- The text is not JSON. -/
  | malformed
  /-- A value has not the type of its field. -/
  | mismatch
  /-- There is no kind of this name. -/
  | unknownKind (name : String)
  deriving DecidableEq

/-- A cause and the path to it, the outermost step first. -/
structure DecodeError where
  path : List Step
  cause : Cause
  deriving DecidableEq

/-- A step in words. -/
def Step.words : Step → String
  | .nodeKind => "unable to read node kind"
  | .documentKind => "unable to read ast kind"
  | .node k => "unable to decode " ++ k.name ++ " node"
  | .document k => "unable to decode " ++ k.name
  | .item index => "node #" ++ index.repr

/-- A cause in words. -/
def Cause.words : Cause → String
  | .malformed => "<json>"
  | .mismatch => "<json>"
  | .unknownKind name => "unknown node kind " ++ Quoted.quote name

namespace DecodeError

/-- The error seen from one step further out. -/
def within (s : Step) (e : DecodeError) : DecodeError := { e with path := s :: e.path }

/-- The steps and the cause, with colons between them. -/
def message (e : DecodeError) : String :=
  e.path.foldr (fun s m => s.words ++ ": " ++ m) e.cause.words

@[simp] theorem message_within (s : Step) (e : DecodeError) :
    (e.within s).message = s.words ++ ": " ++ e.message := rfl

@[simp] theorem cause_within (s : Step) (e : DecodeError) : (e.within s).cause = e.cause := rfl

end DecodeError

end TexTree

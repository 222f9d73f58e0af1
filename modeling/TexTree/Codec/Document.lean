/-
TexTree/Codec/Document.lean

From JSON values to documents.  As with nodes, the kind is looked up, the
members are read one after the other, and what has been read is made a document
of the kind.  The rest of the source belongs to a preamble only; a whole
document passes over it.
-/
import TexTree.Codec.Comments
import TexTree.Codec.Decode

namespace TexTree

open Json (sameName)

/-- What has been read of a document. -/
structure DocumentDraft where
  content : Option (List Node) := none
  comments : CommentDraft := {}
  rest : String := ""

/-- A field of a document. -/
inductive DocumentField where
  | content
  | comments
  | rest
  deriving DecidableEq

/-- The name of a field of a document. -/
def DocumentField.key : DocumentField → String
  | .content => "content"
  | .comments => "comment"
  | .rest => "rest"

/-- The value is of the type of the field; a list of nodes is judged when it is
read. -/
def DocumentField.fits : DocumentField → Json → Bool
  | .content, _ => true
  | .comments, v => CommentDraft.fits v
  | .rest, v => isText v

namespace DocumentKind

/-- The fields of a kind of document. -/
def fields : DocumentKind → List DocumentField
  | .root => [.content, .comments]
  | .preamble => [.content, .comments, .rest]

/-- The field that a member of the given name belongs to. -/
def field? (k : DocumentKind) (name : String) : Option DocumentField :=
  k.fields.find? fun f => sameName f.key name

/-- The member belongs to no field of the kind, or its value is of the type of
the field. -/
def fits (k : DocumentKind) (m : String × Json) : Bool := (k.field? m.1).all fun f => f.fits m.2

end DocumentKind

namespace DocumentDraft

/-- The document of a kind that has been read. -/
def toDocument (d : DocumentDraft) : DocumentKind → Document
  | .root => .root d.content d.comments.comments
  | .preamble => .preamble d.content d.comments.comments d.rest

end DocumentDraft

namespace Document

/-- The members of a document of kind `k`, read over a draft. -/
def readMembers (k : DocumentKind) (d : DocumentDraft) :
    List (String × Json) → Except DecodeError DocumentDraft
  | [] => .ok d
  | (name, v) :: members =>
    match k.field? name with
    | none => readMembers k d members
    | some .content =>
      match Node.listOfJson? v with
      | .error e => .error e
      | .ok ns => readMembers k { d with content := ns.or d.content } members
    | some .comments => readMembers k { d with comments := d.comments.merge v } members
    | some .rest => readMembers k { d with rest := textOr d.rest v } members

/-- The document that a value describes. -/
def ofJson? : Json → Except DecodeError Document
  | .object members =>
    match kindName? members with
    | none => .error ⟨[.documentKind], .mismatch⟩
    | some name =>
      match DocumentKind.ofName? name with
      | none => .error ⟨[], .unknownKind name⟩
      | some k =>
        match readMembers k {} members with
        | .error e => .error (e.within (.document k))
        | .ok d =>
          if members.all k.fits then .ok (d.toDocument k)
          else .error ⟨[.document k], .mismatch⟩
  | .null => .error ⟨[], .unknownKind ""⟩
  | _ => .error ⟨[.documentKind], .mismatch⟩

end Document

end TexTree

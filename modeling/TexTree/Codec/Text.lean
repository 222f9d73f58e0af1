/-
TexTree/Codec/Text.lean

Nodes and documents as text.  The text is read as JSON first, all of it; only
then is the value looked at.  So a fault of the text is reported at the
outermost step, wherever in the text it is.

    Node.decode? s          the node that a text describes
    Node.decodeList? s      the list of nodes that a text describes
    Document.decode? s      the document that a text describes
    Document.read? f        the document that arrives in pieces
-/
import TexTree.Codec.Document
import TexTree.Codec.Encode
import TexTree.Json.Reader

namespace TexTree

namespace Node

/-- The node that a text describes. -/
def decode? (s : List Char) : Except DecodeError Node :=
  match Json.parse? Json.nestingLimit s with
  | none => .error ⟨[.nodeKind], .malformed⟩
  | some v => ofJson? v

/-- The list of nodes that a text describes. -/
def decodeList? (s : List Char) : Except DecodeError (Option (List Node)) :=
  match Json.parse? Json.nestingLimit s with
  | none => .error ⟨[], .malformed⟩
  | some v => listOfJson? v

end Node

/-- Bytes that arrive in pieces, and the failure that ends them, if one does. -/
structure Feed (ε : Type) where
  pieces : List (List UInt8)
  failure : Option ε := none

/-- Why a document could not be read: its bytes did not all arrive, or they
describe none. -/
inductive ReadError (ε : Type) where
  | feed (e : ε)
  | decode (e : DecodeError)

namespace Document

/-- The document that a text describes. -/
def decode? (s : List Char) : Except DecodeError Document :=
  match Json.parse? Json.nestingLimit s with
  | none => .error ⟨[.documentKind], .malformed⟩
  | some v => ofJson? v

/-- The document that arrives in pieces.  How the bytes are cut into pieces does
not matter, and when they end by a failure nothing is read. -/
def read? {ε : Type} (f : Feed ε) : Except (ReadError ε) Document :=
  match f.failure with
  | some e => .error (.feed e)
  | none =>
    match decode? (Utf8.decode f.pieces.flatten) with
    | .error e => .error (.decode e)
    | .ok d => .ok d

end Document

end TexTree

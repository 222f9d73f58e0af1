/-
TexTree/Codec/Encode.lean

From nodes and documents to JSON values.  The name of the kind comes first, then
the fields in the order of the schema, the location last and only when there is
one.  A missing list of nodes is null, and an empty one an empty array.
-/
import TexTree.Document
import TexTree.Codec.Member
import TexTree.Json.Printer

namespace TexTree

/-- The member that gives a location, if there is one. -/
def locationMembers : Option Location → List (String × Json)
  | some l => [("location", l.toJson)]
  | none => []

/-- An object with the name of its kind, its fields and its location. -/
def tagged (kind : String) (fields : List (String × Json)) (loc : Option Location) : Json :=
  .object (("kind", .text kind) :: (fields ++ locationMembers loc))

/-! ### Nodes -/

namespace Node

mutual

/-- The value that describes a node. -/
def toJson : Node → Json
  | .text content loc => tagged Kind.text.name [("content", .text content)] loc
  | .mathChar content loc => tagged Kind.mathChar.name [("content", .text content)] loc
  | .command name args loc =>
    tagged Kind.command.name [("name", .text name), ("args", listToJson args)] loc
  | .textCommand arg loc =>
    tagged Kind.textCommand.name [("arg", argumentToJson Kind.group.name arg)] loc
  | .letCommand name token target loc =>
    tagged Kind.letCommand.name
      [("name", .text name), ("token", .text token), ("aliasTarget", .text target)] loc
  | .defCommand name token args loc =>
    tagged Kind.defCommand.name
      [("name", .text name), ("token", .text token), ("args", listToJson args)] loc
  | .environment flavour name args content loc =>
    tagged flavour.kind.name
      [("name", .text name), ("args", listToJson args), ("content", listToJson content)] loc
  | .enclosed enclosure content loc =>
    tagged enclosure.kind.name [("content", listToJson content)] loc
  | .delimited left right content loc =>
    tagged Kind.delimited.name
      [("left", .text left), ("right", .text right), ("content", listToJson content)] loc
  | .mark m loc => tagged m.kind.name [] loc
  | .parameter number loc => tagged Kind.parameter.name [("nargs", .text number)] loc
  | .verb name escape content loc =>
    tagged Kind.verb.name
      [("name", .text name), ("escape", .text escape), ("content", .text content)] loc
  | .verbatim name content loc =>
    tagged Kind.verbatim.name [("name", .text name), ("content", .text content)] loc
  | .minted name args content loc =>
    tagged Kind.minted.name
      [("name", .text name), ("args", listToJson args), ("content", .text content)] loc
  | .listing name none content loc =>
    tagged Kind.listing.name [("name", .text name), ("content", .text content)] loc
  | .listing name (some arg) content loc =>
    tagged Kind.listing.name
      [("name", .text name), ("arg", argumentToJson Kind.optional.name (some arg)),
        ("content", .text content)] loc

/-- The value that describes a list of nodes. -/
def listToJson : Option (List Node) → Json
  | none => .null
  | some ns => .array (itemsToJson ns)

/-- The values that describe the nodes of a list. -/
def itemsToJson : List Node → List Json
  | [] => []
  | n :: ns => toJson n :: itemsToJson ns

/-- The value that describes a single argument, under the name of a kind. -/
def argumentToJson (kind : String) : Option (Argument Node) → Json
  | none => .null
  | some ⟨content, loc⟩ => tagged kind [("content", listToJson content)] loc

end

@[simp] theorem itemsToJson_eq_map (ns : List Node) : itemsToJson ns = ns.map toJson := by
  induction ns with
  | nil => rfl
  | cons n ns ih => simp [itemsToJson, ih]

/-- The text of a node. -/
def encode (n : Node) : String := n.toJson.print

/-- The text of a list of nodes. -/
def encodeList (ns : Option (List Node)) : String := (listToJson ns).print

end Node

/-! ### Documents -/

/-- The value that describes a comment. -/
def Comment.toJson (c : Comment) : Json := tagged "comment" [("content", .text c.content)] c.loc

/-- The member that gives the comments, if there are any. -/
def commentMembers : List Comment → List (String × Json)
  | [] => []
  | comments => [("comment", .array (comments.map Comment.toJson))]

namespace Document

/-- The value that describes a document. -/
def toJson : Document → Json
  | .root content comments =>
    tagged DocumentKind.root.name
      (("content", Node.listToJson content) :: commentMembers comments) none
  | .preamble content comments rest =>
    tagged DocumentKind.preamble.name
      (("content", Node.listToJson content) :: (commentMembers comments ++ [("rest", .text rest)]))
      none

/-- The text of a document. -/
def encode (d : Document) : String := d.toJson.print

end Document

end TexTree

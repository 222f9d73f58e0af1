/-
TexTree/Codec/Decode.lean

From JSON values to nodes.

    Node.ofJson? v          the node that a value describes
    Node.listOfJson? v      the list of nodes that a value describes

Design.  A node is read from an object in three steps: its kind is looked up,
the members are read one after the other into a `Draft`, and the draft is made a
node of the kind.  A member that belongs to no field of the kind is passed over.
Of all that can be wrong, a list of nodes that cannot be read ends the reading
at once; values of a wrong type elsewhere are reported when all members have
been read.
-/
import TexTree.Node
import TexTree.Codec.Error
import TexTree.Codec.Schema

namespace TexTree

open Json (sameName)

/-- What has been read of a node. -/
structure Draft where
  name : String := ""
  token : String := ""
  target : String := ""
  left : String := ""
  right : String := ""
  number : String := ""
  escape : String := ""
  text : String := ""
  args : Option (List Node) := none
  content : Option (List Node) := none
  argument : Option (Argument Node) := none
  loc : Option Location := none

namespace Draft

/-- A value, read over the field it belongs to.  The fields that hold nodes are
not read here. -/
def put (d : Draft) (v : Json) : Field → Draft
  | .name => { d with name := textOr d.name v }
  | .token => { d with token := textOr d.token v }
  | .target => { d with target := textOr d.target v }
  | .left => { d with left := textOr d.left v }
  | .right => { d with right := textOr d.right v }
  | .number => { d with number := textOr d.number v }
  | .escape => { d with escape := textOr d.escape v }
  | .text => { d with text := textOr d.text v }
  | .location => { d with loc := Location.merge d.loc v }
  | .args | .content | .argument => d

/-- The node of a kind that has been read. -/
def toNode (d : Draft) : Kind → Node
  | .text => .text d.text d.loc
  | .command => .command d.name d.args d.loc
  | .textCommand => .textCommand d.argument d.loc
  | .letCommand => .letCommand d.name d.token d.target d.loc
  | .defCommand => .defCommand d.name d.token d.args d.loc
  | .environment => .environment .plain d.name d.args d.content d.loc
  | .align => .environment .align d.name d.args d.content d.loc
  | .aligned => .environment .aligned d.name d.args d.content d.loc
  | .group => .enclosed .group d.content d.loc
  | .optional => .enclosed .optional d.content d.loc
  | .parBreak => .mark .parBreak d.loc
  | .superscript => .enclosed .superscript d.content d.loc
  | .subscript => .enclosed .subscript d.content d.loc
  | .alignmentTab => .mark .alignmentTab d.loc
  | .parameter => .parameter d.number d.loc
  | .tie => .mark .tie d.loc
  | .ignored => .mark .ignored d.loc
  | .verb => .verb d.name d.escape d.text d.loc
  | .verbatim => .verbatim d.name d.text d.loc
  | .minted => .minted d.name d.args d.text d.loc
  | .listing => .listing d.name d.argument d.text d.loc
  | .inlineMath => .enclosed .inlineMath d.content d.loc
  | .displayMath => .enclosed .displayMath d.content d.loc
  | .mathChar => .mathChar d.text d.loc
  | .delimited => .delimited d.left d.right d.content d.loc

/-- A node made from a draft is of the kind it was made for. -/
@[simp] theorem kind_toNode (d : Draft) (k : Kind) : (d.toNode k).kind = k := by
  cases k <;> rfl

end Draft

/-! ### Reading nodes -/

namespace Node

mutual

/-- The node that a value describes. -/
def ofJson? : Json → Except DecodeError Node
  | .object members =>
    match kindName? members with
    | none => .error ⟨[.nodeKind], .mismatch⟩
    | some name =>
      match Kind.ofName? name with
      | none => .error ⟨[], .unknownKind name⟩
      | some k =>
        match readMembers k {} members with
        | .error e => .error (e.within (.node k))
        | .ok d => if members.all k.fits then .ok (d.toNode k) else .error ⟨[.node k], .mismatch⟩
  | .null => .error ⟨[], .unknownKind ""⟩
  | _ => .error ⟨[.nodeKind], .mismatch⟩

/-- The members of a node of kind `k`, read over a draft. -/
def readMembers (k : Kind) (d : Draft) : List (String × Json) → Except DecodeError Draft
  | [] => .ok d
  | (name, v) :: members =>
    match k.field? name with
    | none => readMembers k d members
    | some .args =>
      match listOfJson? v with
      | .error e => .error e
      | .ok ns => readMembers k { d with args := ns.or d.args } members
    | some .content =>
      match listOfJson? v with
      | .error e => .error e
      | .ok ns => readMembers k { d with content := ns.or d.content } members
    | some .argument =>
      match readArgument d.argument v with
      | .error e => .error e
      | .ok a => readMembers k { d with argument := a } members
    | some f => readMembers k (d.put v f) members

/-- A value, read over a single argument that may be missing. -/
def readArgument (a : Option (Argument Node)) : Json → Except DecodeError (Option (Argument Node))
  | .object members =>
    match readArgumentMembers (a.getD {}) members with
    | .error e => .error e
    | .ok a => .ok (some a)
  | .null => .ok none
  | _ => .ok a

/-- The members of a single argument, read over it.  It has no kind of its own. -/
def readArgumentMembers (a : Argument Node) :
    List (String × Json) → Except DecodeError (Argument Node)
  | [] => .ok a
  | (name, v) :: members =>
    if sameName "content" name then
      match listOfJson? v with
      | .error e => .error e
      | .ok ns => readArgumentMembers { a with content := ns.or a.content } members
    else if sameName "location" name then
      readArgumentMembers { a with loc := Location.merge a.loc v } members
    else readArgumentMembers a members

/-- The list of nodes that a value describes; null describes a missing list. -/
def listOfJson? : Json → Except DecodeError (Option (List Node))
  | .array items =>
    match itemsOfJson? 0 items with
    | .error e => .error e
    | .ok ns => .ok (some ns)
  | .null => .ok none
  | _ => .error ⟨[], .mismatch⟩

/-- The nodes that the items of an array describe, counted from `index`. -/
def itemsOfJson? (index : Nat) : List Json → Except DecodeError (List Node)
  | [] => .ok []
  | v :: items =>
    match ofJson? v with
    | .error e => .error (e.within (.item index))
    | .ok n =>
      match itemsOfJson? (index + 1) items with
      | .error e => .error e
      | .ok ns => .ok (n :: ns)

end

end Node

end TexTree

/-
TexTree/Codec/Schema.lean

Which fields a node of each kind has in the exchange format, under which names,
and which values they take.

    k.fields         the fields of a kind, in the order in which they are written
    k.field? s       the field of the kind that a member named s belongs to
    f.fits v         the value v is of the type of the field f

A list of nodes takes any value as far as this module is concerned: whether it
is an array of nodes shows when it is read.
-/
import TexTree.Kind
import TexTree.Codec.Member

namespace TexTree

open Json (sameName)

/-- A field of a node.  `text` and `content` bear the same name: the one holds a
text, the other a list of nodes, and no kind has both. -/
inductive Field where
  | name
  | token
  | target
  | left
  | right
  | number
  | escape
  | text
  | args
  | content
  | argument
  | location
  deriving DecidableEq

namespace Field

/-- The name of a field. -/
def key : Field → String
  | .name => "name"
  | .token => "token"
  | .target => "aliasTarget"
  | .left => "left"
  | .right => "right"
  | .number => "nargs"
  | .escape => "escape"
  | .text => "content"
  | .args => "args"
  | .content => "content"
  | .argument => "arg"
  | .location => "location"

/-- A value for a single argument, as far as its location is concerned. -/
def argumentFits : Json → Bool
  | .object members => allNamed "location" Location.fits members
  | .null => true
  | _ => false

/-- The value is of the type of the field. -/
def fits : Field → Json → Bool
  | .args, _ | .content, _ => true
  | .argument, v => argumentFits v
  | .location, v => Location.fits v
  | _, v => isText v

end Field

namespace Kind

/-- The fields of a kind. -/
def fields : Kind → List Field
  | .text => [.text, .location]
  | .command => [.name, .args, .location]
  | .textCommand => [.argument, .location]
  | .letCommand => [.name, .token, .target, .location]
  | .defCommand => [.name, .token, .args, .location]
  | .environment | .align | .aligned => [.name, .args, .content, .location]
  | .group | .optional | .superscript | .subscript | .inlineMath | .displayMath =>
    [.content, .location]
  | .parBreak | .alignmentTab | .tie | .ignored => [.location]
  | .parameter => [.number, .location]
  | .verb => [.name, .escape, .text, .location]
  | .verbatim => [.name, .text, .location]
  | .minted => [.name, .args, .text, .location]
  | .listing => [.name, .argument, .text, .location]
  | .mathChar => [.text, .location]
  | .delimited => [.left, .right, .content, .location]

/-- The field of the kind that a member of the given name belongs to. -/
def field? (k : Kind) (name : String) : Option Field :=
  k.fields.find? fun f => sameName f.key name

/-- The member belongs to no field of the kind, or its value is of the type of
the field. -/
def fits (k : Kind) (m : String × Json) : Bool := (k.field? m.1).all fun f => f.fits m.2

/-- A field is found under its own name. -/
theorem field?_key {k : Kind} {f : Field} (h : f ∈ k.fields) : k.field? f.key = some f := by
  revert h
  cases k <;> cases f <;> decide

/-- The name of the kind is the name of no field. -/
@[simp] theorem field?_kind (k : Kind) : k.field? "kind" = none := by
  cases k <;> decide

end Kind

end TexTree

/-
TexTree/Codec/Member.lean

Reading the members of an object that hold no nodes: texts, numbers, points and
locations.  A value is read over the one that is there already, so that a name
that comes twice has the effect of both members, one after the other.

    a text, a word, a point     null keeps what is there
    a location                  null takes it away
    a point, a location         an object changes the members it names

Whether a value is of the right type (`isText`, `isWord`, `Point.fits`,
`Location.fits`) is asked apart from reading it; what is not of the right type
changes nothing.
-/
import TexTree.Json.Basic
import TexTree.Json.Name
import TexTree.Text.Numeral
import TexTree.Location

namespace TexTree

open Json (sameName)

/-! ### Texts and words -/

/-- A value for a text: a text, or null. -/
def isText : Json → Bool
  | .text _ | .null => true
  | _ => false

/-- The text `v`, or `old` when `v` is none. -/
def textOr (old : String) : Json → String
  | .text s => s
  | _ => old

/-- A value for a word of 64 bits: an integer that fits, or null. -/
def isWord : Json → Bool
  | .int n => (Numeral.word? n).isSome
  | .null => true
  | _ => false

/-- The word `v`, or `old` when `v` is none. -/
def wordOr (old : Int64) : Json → Int64
  | .int n => (Numeral.word? n).getD old
  | _ => old

/-- The last text among the members of the given name. -/
def lastText (name : String) (members : List (String × Json)) : String :=
  members.foldl (fun s m => if sameName name m.1 then textOr s m.2 else s) ""

/-- Every member of the given name has a value that satisfies `p`. -/
def allNamed (name : String) (p : Json → Bool) (members : List (String × Json)) : Bool :=
  members.all fun m => !sameName name m.1 || p m.2

/-- The name of a kind that the members of an object give; a value that is not a
text is no name. -/
def kindName? (members : List (String × Json)) : Option String :=
  if allNamed "kind" isText members then some (lastText "kind" members) else none

/-! ### Points -/

namespace Point

/-- One member, read over a point. -/
def put (p : Point) (m : String × Json) : Point :=
  if sameName "offset" m.1 then { p with offset := wordOr p.offset m.2 }
  else if sameName "line" m.1 then { p with line := wordOr p.line m.2 }
  else if sameName "column" m.1 then { p with column := wordOr p.column m.2 }
  else p

/-- A value, read over a point. -/
def merge (p : Point) : Json → Point
  | .object members => members.foldl put p
  | _ => p

/-- A value for a point. -/
def fits : Json → Bool
  | .object members =>
    allNamed "offset" isWord members && allNamed "line" isWord members &&
      allNamed "column" isWord members
  | .null => true
  | _ => false

/-- The value of a point. -/
def toJson (p : Point) : Json :=
  .object [("offset", .int p.offset.toInt), ("line", .int p.line.toInt),
    ("column", .int p.column.toInt)]

end Point

/-! ### Locations -/

namespace Location

/-- One member, read over a location. -/
def put (l : Location) (m : String × Json) : Location :=
  if sameName "start" m.1 then { l with start := l.start.merge m.2 }
  else if sameName "end" m.1 then { l with stop := l.stop.merge m.2 }
  else l

/-- A value, read over a location that may be missing. -/
def merge (l : Option Location) : Json → Option Location
  | .object members => some (members.foldl put (l.getD {}))
  | .null => none
  | _ => l

/-- A value for a location. -/
def fits : Json → Bool
  | .object members => allNamed "start" Point.fits members && allNamed "end" Point.fits members
  | .null => true
  | _ => false

/-- The value of a location. -/
def toJson (l : Location) : Json :=
  .object [("start", l.start.toJson), ("end", l.stop.toJson)]

/-- The location that a value gives. -/
def ofJson? (v : Json) : Option (Option Location) :=
  if fits v then some (merge none v) else none

end Location

end TexTree

/-
TexTree/Json/Basic.lean

JSON values.  An object keeps its members in the order of the text, repeated
names included, because what a repeated name means is for the reader of the
object to decide.

    Atom       null, a truth value, a number, a text
    Json       an atom, an array, an object

A number is an integer when its literal is one; any other literal (with a
fraction or an exponent) is kept as it stands.
-/

namespace TexTree

/-- A value without parts. -/
inductive Atom where
  | null
  | bool (b : Bool)
  | int (n : Int)
  | decimal (literal : String)
  | text (s : String)
  deriving DecidableEq, Inhabited

/-- A JSON value. -/
inductive Json where
  | atom (a : Atom)
  | array (items : List Json)
  | object (members : List (String × Json))
  deriving Inhabited

namespace Json

/-- Nothing. -/
@[match_pattern] abbrev null : Json := .atom .null

/-- A truth value. -/
@[match_pattern] abbrev bool (b : Bool) : Json := .atom (.bool b)

/-- An integer. -/
@[match_pattern] abbrev int (n : Int) : Json := .atom (.int n)

/-- A text. -/
@[match_pattern] abbrev text (s : String) : Json := .atom (.text s)

/-! ### Nesting -/

mutual

/-- How many arrays and objects stand inside one another, at the most. -/
def depth : Json → Nat
  | .atom _ => 0
  | .array items => depthItems items + 1
  | .object members => depthMembers members + 1

/-- The depth of the deepest item. -/
def depthItems : List Json → Nat
  | [] => 0
  | v :: items => max (depth v) (depthItems items)

/-- The depth of the deepest member. -/
def depthMembers : List (String × Json) → Nat
  | [] => 0
  | (_, v) :: members => max (depth v) (depthMembers members)

end

end Json

end TexTree

/-
TexTree/Json/Reader.lean

From tokens to a value.  The reader is a machine that takes one token at a time
and holds the arrays and objects that are still open in a list, the innermost
first; how deep they may stand inside one another is a parameter.

    Reader.step limit r t     the reader after one more token, if t may come
    Json.ofTokens? limit ts   the value that the tokens spell
    Json.parse? limit cs      the value that a text spells

Design.  Each state of the reader says what may come next and holds exactly what
has been read of the innermost container.  A finished value is handed to the
container around it by `supply`.
-/
import TexTree.Json.Token

namespace TexTree

/-- A container that is waiting for a value: an array, or an object behind a
name and its colon.  What it holds already comes last first. -/
inductive Frame where
  | array (items : List Json)
  | object (members : List (String × Json)) (name : String)

/-- What has been read and what may come next. -/
inductive Reader where
  /-- A value must come. -/
  | value (outer : List Frame)
  /-- An array has been opened: its first item or its end must come. -/
  | firstItem (outer : List Frame)
  /-- An object has been opened: its first name or its end must come. -/
  | firstName (outer : List Frame)
  /-- A comma has been read in an object: a name must come. -/
  | nextName (members : List (String × Json)) (outer : List Frame)
  /-- A name has been read: a colon must come. -/
  | colon (members : List (String × Json)) (name : String) (outer : List Frame)
  /-- An item has been read: a comma or the end of the array must come. -/
  | afterItem (items : List Json) (outer : List Frame)
  /-- A member has been read: a comma or the end of the object must come. -/
  | afterMember (members : List (String × Json)) (outer : List Frame)
  /-- The value is complete: nothing more may come. -/
  | done (v : Json)

namespace Reader

/-- A finished value goes to the container that waits for it. -/
def supply (v : Json) : List Frame → Reader
  | [] => .done v
  | .array items :: outer => .afterItem (v :: items) outer
  | .object members name :: outer => .afterMember ((name, v) :: members) outer

/-- The first token of a value.  A container may be opened as long as fewer than
`limit` are open. -/
def start (limit : Nat) (outer : List Frame) : Token → Option Reader
  | .atom a => some (supply (.atom a) outer)
  | .openArray => if outer.length < limit then some (.firstItem outer) else none
  | .openObject => if outer.length < limit then some (.firstName outer) else none
  | _ => none

/-- The reader after one more token, if that token may come. -/
def step (limit : Nat) : Reader → Token → Option Reader
  | .value outer, t => start limit outer t
  | .firstItem outer, .closeArray => some (supply (.array []) outer)
  | .firstItem outer, t => start limit (.array [] :: outer) t
  | .firstName outer, .closeObject => some (supply (.object []) outer)
  | .firstName outer, .atom (.text name) => some (.colon [] name outer)
  | .nextName members outer, .atom (.text name) => some (.colon members name outer)
  | .colon members name outer, .colon => some (.value (.object members name :: outer))
  | .afterItem items outer, .comma => some (.value (.array items :: outer))
  | .afterItem items outer, .closeArray => some (supply (.array items.reverse) outer)
  | .afterMember members outer, .comma => some (.nextName members outer)
  | .afterMember members outer, .closeObject => some (supply (.object members.reverse) outer)
  | _, _ => none

/-- The reader after a list of tokens. -/
def run (limit : Nat) (r : Reader) (ts : List Token) : Option Reader := ts.foldlM (step limit) r

/-- The value of a reader that has read it to its end. -/
def result? : Reader → Option Json
  | .done v => some v
  | _ => none

theorem run_append (limit : Nat) (r : Reader) (ts us : List Token) :
    run limit r (ts ++ us) = (run limit r ts).bind fun r => run limit r us := by
  simp [run, List.foldlM_append]

end Reader

namespace Json

/-- The value that the tokens spell, its nesting being at most `limit`. -/
def ofTokens? (limit : Nat) (ts : List Token) : Option Json :=
  (Reader.run limit (.value []) ts).bind Reader.result?

/-- The value that a text spells, its nesting being at most `limit`. -/
def parse? (limit : Nat) (cs : List Char) : Option Json :=
  (Token.scan? cs).bind (ofTokens? limit)

/-- How deep arrays and objects may stand inside one another in a text that is
exchanged. -/
def nestingLimit : Nat := 10000

end Json

end TexTree

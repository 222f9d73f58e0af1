/-
TexTree/Json/Printer.lean

From a value to its tokens, and from there to text without blanks.

    v.tokensThen ts = v.tokens ++ ts

The tokens of a value are put in front of those that follow it, so that a deep
value costs no more than a flat one.
-/
import TexTree.Json.Token

namespace TexTree.Json

mutual

/-- The tokens of a value, followed by `after`. -/
def tokensThen : Json → List Token → List Token
  | .atom a, after => .atom a :: after
  | .array items, after => .openArray :: itemTokensThen items (.closeArray :: after)
  | .object members, after => .openObject :: memberTokensThen members (.closeObject :: after)

/-- The tokens of the items with commas between them, followed by `after`. -/
def itemTokensThen : List Json → List Token → List Token
  | [], after => after
  | [v], after => tokensThen v after
  | v :: w :: items, after => tokensThen v (.comma :: itemTokensThen (w :: items) after)

/-- The tokens of the members with commas between them, followed by `after`. -/
def memberTokensThen : List (String × Json) → List Token → List Token
  | [], after => after
  | [(k, v)], after => .atom (.text k) :: .colon :: tokensThen v after
  | (k, v) :: m :: members, after =>
    .atom (.text k) :: .colon :: tokensThen v (.comma :: memberTokensThen (m :: members) after)

end

/-- The tokens of a value. -/
def tokens (v : Json) : List Token := v.tokensThen []

/-- The characters of a value, without blanks. -/
def chars (v : Json) : List Char := v.tokens.flatMap Token.spell

/-- The text of a value, without blanks. -/
def print (v : Json) : String := String.ofList v.chars

end TexTree.Json

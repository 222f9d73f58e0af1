/-
TexTree/Json/Literal.lean

The literals of JSON text: strings between quotes, numbers, and the three words.

    StringLiteral.write s         the literal of s, quotes included
    StringLiteral.read? cs        the string whose literal starts behind an
                                  opening quote, and the text behind the
                                  closing one
    number? cs                    the number that is spelled by all of cs
    word? cs                      the value that is spelled by the letters cs

Design.  A string is read in two steps.  `pieces?` finds the closing quote and
resolves the escapes one by one, so that `\uXXXX` gives a unit of 16 bits; `join`
then makes characters of the units, two surrogates in a row being one character
and any other surrogate a replacement character.
-/
import TexTree.Text.Hex
import TexTree.Text.Numeral
import TexTree.Text.Utf8
import TexTree.Json.Basic

namespace TexTree

namespace StringLiteral

/-! ### Writing -/

/-- A character given by its number, in four hexadecimal digits. -/
def numbered (c : Char) : List Char := '\\' :: 'u' :: Hex.write 4 c.toNat

/-- One character of a string literal.  Besides what must be escaped, the
characters that mean something to a page's markup (`<`, `>`, `&`) or end a
line there (U+2028, U+2029) are given by number. -/
def escape (c : Char) : List Char :=
  if c = '"' ∨ c = '\\' then ['\\', c]
  else if c = '\n' then ['\\', 'n']
  else if c = '\r' then ['\\', 'r']
  else if c = '\t' then ['\\', 't']
  else if c.toNat = 0x08 then ['\\', 'b']
  else if c.toNat = 0x0c then ['\\', 'f']
  else if c.toNat < 0x20 ∨ c = '<' ∨ c = '>' ∨ c = '&' ∨ c.toNat = 0x2028 ∨ c.toNat = 0x2029 then
    numbered c
  else [c]

/-- The literal of a text, quotes included. -/
def write (s : List Char) : List Char := '"' :: (s.flatMap escape ++ ['"'])

/-! ### Reading -/

/-- A piece of a string literal: a character, or a unit of 16 bits given by
number. -/
inductive Piece where
  | char (c : Char)
  | unit (n : Nat)
  deriving DecidableEq

/-- What a letter stands for behind a backslash. -/
def escaped? : Char → Option Char
  | '"' => some '"'
  | '\\' => some '\\'
  | '/' => some '/'
  | 'b' => some (Char.ofNat 0x08)
  | 'f' => some (Char.ofNat 0x0c)
  | 'n' => some '\n'
  | 'r' => some '\r'
  | 't' => some '\t'
  | _ => none

/-- The pieces up to the closing quote, in front of them the ones read before
(`seen`, last first), and the text behind the quote. -/
def pieces? (seen : List Piece) : List Char → Option (List Piece × List Char)
  | [] => none
  | c :: rest =>
    if c = '"' then some (seen.reverse, rest)
    else if c = '\\' then
      match rest with
      | 'u' :: h₁ :: h₂ :: h₃ :: h₄ :: rest =>
        match Hex.read? [h₁, h₂, h₃, h₄] with
        | some n => pieces? (.unit n :: seen) rest
        | none => none
      | e :: rest =>
        match escaped? e with
        | some x => pieces? (.char x :: seen) rest
        | none => none
      | [] => none
    else if c.toNat < 0x20 then none
    else pieces? (.char c :: seen) rest

/-- The unit is the first half of a surrogate pair. -/
def isHigh (n : Nat) : Bool := 0xd800 ≤ n && n < 0xdc00

/-- The unit is the second half of a surrogate pair. -/
def isLow (n : Nat) : Bool := 0xdc00 ≤ n && n < 0xe000

/-- The character of a surrogate pair. -/
def paired (high low : Nat) : Char :=
  Char.ofNat (0x10000 + (high - 0xd800) * 0x400 + (low - 0xdc00))

/-- The character of a unit that stands alone. -/
def single (n : Nat) : Char := if isHigh n || isLow n then Utf8.replacement else Char.ofNat n

/-- The text that the pieces make up. -/
def join : List Piece → List Char
  | [] => []
  | .char c :: rest => c :: join rest
  | .unit n :: .unit m :: rest =>
    if isHigh n && isLow m then paired n m :: join rest else single n :: join (.unit m :: rest)
  | .unit n :: rest => single n :: join rest

/-- The string whose literal starts behind an opening quote, and the text behind
the closing quote. -/
def read? (cs : List Char) : Option (String × List Char) :=
  (pieces? [] cs).map fun (ps, rest) => (String.ofList (join ps), rest)

/-- Reading a literal uses up at least the closing quote. -/
theorem length_lt_of_pieces? {seen ps : List Piece} {cs rest : List Char}
    (h : pieces? seen cs = some (ps, rest)) : rest.length < cs.length := by
  fun_induction pieces? seen cs <;> simp_all <;> omega

theorem length_lt_of_read? {cs rest : List Char} {s : String} (h : read? cs = some (s, rest)) :
    rest.length < cs.length := by
  simp only [read?, Option.map_eq_some_iff] at h
  obtain ⟨⟨ps, rest'⟩, hp, he⟩ := h
  obtain rfl : rest' = rest := congrArg Prod.snd he
  exact length_lt_of_pieces? hp

end StringLiteral

/-! ### Numbers and words -/

namespace Json

/-- A character that can stand in a number literal. -/
def isNumberChar (c : Char) : Bool :=
  c.isDigit || c == '-' || c == '+' || c == '.' || c == 'e' || c == 'E'

/-- One digit or more, and nothing else. -/
def isDigits (cs : List Char) : Bool := !cs.isEmpty && cs.all Char.isDigit

/-- The whole part of a number: a zero, or digits that do not start with one. -/
def isWhole : List Char → Bool
  | [] => false
  | c :: rest => if c = '0' then rest.isEmpty else (c :: rest).all Char.isDigit

/-- What stands behind the fraction, if there is one. -/
def afterFraction? : List Char → Option (List Char)
  | '.' :: rest =>
    if (rest.takeWhile Char.isDigit).isEmpty then none else some (rest.dropWhile Char.isDigit)
  | cs => some cs

/-- An exponent, or nothing. -/
def isExponent : List Char → Bool
  | [] => true
  | e :: rest =>
    (e == 'e' || e == 'E') &&
      match rest with
      | '+' :: digits => isDigits digits
      | '-' :: digits => isDigits digits
      | digits => isDigits digits

/-- The unsigned number that is spelled by `body`, for the literal `cs`. -/
def unsigned? (negative : Bool) (cs body : List Char) : Option Atom :=
  let whole := body.takeWhile Char.isDigit
  let rest := body.dropWhile Char.isDigit
  if !isWhole whole then none
  else if rest.isEmpty then
    let n : Int := Nat.ofDigitChars 10 whole 0
    some (.int (if negative then -n else n))
  else if (afterFraction? rest).any isExponent then some (.decimal (String.ofList cs))
  else none

/-- The number that is spelled by all of `cs`. -/
def number? : List Char → Option Atom
  | '-' :: body => unsigned? true ('-' :: body) body
  | cs => unsigned? false cs cs

/-- The value that is spelled by the letters `cs`. -/
def word? (cs : List Char) : Option Atom :=
  if cs = "null".toList then some .null
  else if cs = "true".toList then some (.bool true)
  else if cs = "false".toList then some (.bool false)
  else none

/-- The literal of an atom. -/
def literal : Atom → List Char
  | .null => "null".toList
  | .bool true => "true".toList
  | .bool false => "false".toList
  | .int n => Numeral.write n
  | .decimal l => l.toList
  | .text s => StringLiteral.write s.toList

end Json

end TexTree

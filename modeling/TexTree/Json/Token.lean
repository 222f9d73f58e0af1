/-
TexTree/Json/Token.lean

JSON text as a list of tokens: the six punctuation marks and the atoms.

    Token.spell t         the characters of a token
    scan? cs              the tokens of a text, blanks left out

Design.  A token is found by its first character.  Words and numbers are then
cut off as long as their characters last, and only what was cut off is asked
whether it spells anything; so `12a` and `nullnull` are refused here, and `1 2`
is left to the reader of the tokens.
-/
import TexTree.Json.Literal

namespace TexTree

/-- A token of JSON text. -/
inductive Token where
  | atom (a : Atom)
  | openArray
  | closeArray
  | openObject
  | closeObject
  | comma
  | colon
  deriving DecidableEq, Inhabited

namespace Token

/-- The characters of a token. -/
def spell : Token → List Char
  | .atom a => Json.literal a
  | .openArray => ['[']
  | .closeArray => [']']
  | .openObject => ['\x7b']
  | .closeObject => ['\x7d']
  | .comma => [',']
  | .colon => [':']

/-- A blank between tokens. -/
def isSpace (c : Char) : Bool := c == ' ' || c == '\t' || c == '\r' || c == '\n'

/-- The punctuation mark that a character is. -/
def mark? : Char → Option Token
  | '[' => some .openArray
  | ']' => some .closeArray
  | '\x7b' => some .openObject
  | '\x7d' => some .closeObject
  | ',' => some .comma
  | ':' => some .colon
  | _ => none

/-- The atom that is spelled by the characters of `cs` up to the first outside
`p`, and the text from there on. -/
def cut? (p : Char → Bool) (spelled? : List Char → Option Atom) (cs : List Char) :
    Option (Token × List Char) :=
  (spelled? (cs.takeWhile p)).map fun a => (.atom a, cs.dropWhile p)

/-- The token at the front of `c :: rest`, and the text behind it. -/
def next? (c : Char) (rest : List Char) : Option (Token × List Char) :=
  match mark? c with
  | some t => some (t, rest)
  | none =>
    if c = '"' then (StringLiteral.read? rest).map fun (s, rest) => (.atom (.text s), rest)
    else if Json.isNumberChar c && !c.isAlpha then cut? Json.isNumberChar Json.number? (c :: rest)
    else if c.isAlpha then cut? Char.isAlpha Json.word? (c :: rest)
    else none

/-! ### Every token uses up some text -/

theorem length_dropWhile_le {α : Type} (p : α → Bool) (l : List α) :
    (l.dropWhile p).length ≤ l.length :=
  (List.dropWhile_suffix p).length_le

theorem length_le_of_cut? {p : Char → Bool} {spelled? : List Char → Option Atom} {c : Char}
    {cs rest : List Char} {t : Token} (hc : p c) (h : cut? p spelled? (c :: cs) = some (t, rest)) :
    rest.length ≤ cs.length := by
  simp only [cut?, Option.map_eq_some_iff] at h
  obtain ⟨a, -, he⟩ := h
  obtain rfl : (c :: cs).dropWhile p = rest := congrArg Prod.snd he
  simpa [List.dropWhile_cons, hc] using length_dropWhile_le p cs

/-- What stands behind a token is no longer than what stands behind its first
character. -/
theorem length_le_of_next? {c : Char} {cs rest : List Char} {t : Token}
    (h : next? c cs = some (t, rest)) : rest.length ≤ cs.length := by
  simp only [next?] at h
  split at h
  · simp_all
  · split at h
    · simp only [Option.map_eq_some_iff] at h
      obtain ⟨⟨s, rest'⟩, hs, he⟩ := h
      obtain rfl : rest' = rest := congrArg Prod.snd he
      exact Nat.le_of_lt (StringLiteral.length_lt_of_read? hs)
    · split at h
      · next hc => exact length_le_of_cut? (by simp_all) h
      · split at h
        · next hc => exact length_le_of_cut? hc h
        · contradiction

/-! ### Scanning a text -/

/-- The tokens of a text, behind the ones found before (`seen`, last first). -/
def scanFrom? (seen : List Token) (cs : List Char) : Option (List Token) :=
  match _hcs : cs.dropWhile isSpace with
  | [] => some seen.reverse
  | c :: rest =>
    match _hnext : next? c rest with
    | none => none
    | some (t, rest') => scanFrom? (t :: seen) rest'
termination_by cs.length
decreasing_by
  have h₁ := length_dropWhile_le isSpace cs
  have h₂ := length_le_of_next? _hnext
  rw [_hcs, List.length_cons] at h₁
  omega

/-- The tokens of a text, blanks left out. -/
def scan? (cs : List Char) : Option (List Token) := scanFrom? [] cs

end Token

end TexTree

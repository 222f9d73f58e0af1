/-
TexTree/Text/Quoted.lean

A text between double quotes, on one line and in printable characters, as error
messages show it.  Printable characters stand for themselves, the quote and the
backslash are escaped, seven controls have a letter of their own, and everything
else is given by its number in the shortest of three widths.
-/
import TexTree.Text.Hex
import TexTree.Text.Printable

namespace TexTree.Quoted

/-- The letter that stands for a control character behind a backslash. -/
def controlLetter? (c : Char) : Option Char :=
  match c.toNat with
  | 0x07 => some 'a'
  | 0x08 => some 'b'
  | 0x09 => some 't'
  | 0x0a => some 'n'
  | 0x0b => some 'v'
  | 0x0c => some 'f'
  | 0x0d => some 'r'
  | _ => none

/-- A character given by its number: two, four or eight hexadecimal digits. -/
def numbered (c : Char) : List Char :=
  let n := c.toNat
  if n < 0x20 ∨ n = 0x7f then '\\' :: 'x' :: Hex.write 2 n
  else if n < 0x10000 then '\\' :: 'u' :: Hex.write 4 n
  else '\\' :: 'U' :: Hex.write 8 n

/-- One character of a quoted text. -/
def encodeChar (c : Char) : List Char :=
  if c = '"' ∨ c = '\\' then ['\\', c]
  else if isPrintable c then [c]
  else
    match controlLetter? c with
    | some letter => ['\\', letter]
    | none => numbered c

/-- The text between double quotes. -/
def encode (s : List Char) : List Char := '"' :: (s.flatMap encodeChar ++ ['"'])

/-- The string between double quotes. -/
def quote (s : String) : String := String.ofList (encode s.toList)

end TexTree.Quoted

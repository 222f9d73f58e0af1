/-
TexTree/Text/Utf8.lean

Bytes read as UTF-8.  Reading never fails: a byte that belongs to no
well-formed sequence becomes one replacement character, and reading goes on
with the byte after it.

Design.  `leading` looks at the front of the bytes and says which character
stands there and how many further bytes it uses up; `decode` walks down the
list once and passes over the bytes that are used up.
-/

namespace TexTree.Utf8

/-- The character that stands for bytes that spell none, U+FFFD. -/
def replacement : Char := Char.ofNat 0xfffd

/-- A byte that continues a sequence. -/
def isTail (b : UInt8) : Bool := 0x80 ≤ b && b < 0xc0

/-- The six bits that a continuing byte carries. -/
def tailBits (b : UInt8) : Nat := b.toNat % 64

/-- The character with code point `n`, provided that it is a character and has
no spelling below `least`, where the shorter spellings end. -/
def scalar? (least n : Nat) : Option Char :=
  if least ≤ n ∧ n.isValidChar then some (Char.ofNat n) else none

/-- The character spelled by two bytes. -/
def pair? (a b : UInt8) : Option Char :=
  if 0xc0 ≤ a && a < 0xe0 && isTail b then
    scalar? 0x80 (a.toNat % 32 * 64 + tailBits b)
  else none

/-- The character spelled by three bytes. -/
def triple? (a b c : UInt8) : Option Char :=
  if 0xe0 ≤ a && a < 0xf0 && isTail b && isTail c then
    scalar? 0x800 (a.toNat % 16 * 4096 + tailBits b * 64 + tailBits c)
  else none

/-- The character spelled by four bytes. -/
def quadruple? (a b c d : UInt8) : Option Char :=
  if 0xf0 ≤ a && a < 0xf8 && isTail b && isTail c && isTail d then
    scalar? 0x10000 (a.toNat % 8 * 262144 + tailBits b * 4096 + tailBits c * 64 + tailBits d)
  else none

/-- The character at the front of `a :: rest`, and how many bytes of `rest` it
uses up. -/
def leading (a : UInt8) (rest : List UInt8) : Char × Nat :=
  if a < 0x80 then (Char.ofNat a.toNat, 0)
  else
    match rest with
    | [] => (replacement, 0)
    | b :: rest =>
      match pair? a b, rest with
      | some x, _ => (x, 1)
      | none, [] => (replacement, 0)
      | none, c :: rest =>
        match triple? a b c, rest with
        | some x, _ => (x, 2)
        | none, [] => (replacement, 0)
        | none, d :: _ =>
          match quadruple? a b c d with
          | some x => (x, 3)
          | none => (replacement, 0)

/-- Reads on after `skip` further bytes. -/
def decodeAfter : Nat → List UInt8 → List Char
  | _, [] => []
  | skip + 1, _ :: rest => decodeAfter skip rest
  | 0, a :: rest => (leading a rest).1 :: decodeAfter (leading a rest).2 rest

/-- The text that the bytes spell, one replacement character for each byte
outside a well-formed sequence. -/
def decode (bytes : List UInt8) : List Char := decodeAfter 0 bytes

/-- A byte below 128 spells the character of that number. -/
@[simp] theorem decode_cons_of_lt {a : UInt8} (h : a < 0x80) (rest : List UInt8) :
    decode (a :: rest) = Char.ofNat a.toNat :: decode rest := by
  simp [decode, decodeAfter, leading, h]

end TexTree.Utf8

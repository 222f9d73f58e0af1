/-
TexTree/Text/Numeral.lean

Whole numbers in decimal notation: how they are written, and which texts are
read as one.

    write n        the digits of n, after a minus sign when n is negative
    natural? s     the number whose digits are s
    signed? s      the 64-bit number written as s, with an optional sign

Positions and repeat counts are 64-bit numbers; `word?` is the bound.
-/

namespace TexTree.Numeral

/-- The decimal digits of a number, after a minus sign when it is negative. -/
def write (n : Int) : List Char :=
  if n < 0 then '-' :: Nat.toDigits 10 n.natAbs else Nat.toDigits 10 n.natAbs

/-- The number whose decimal digits are `s`; at least one digit is needed. -/
def natural? (s : List Char) : Option Nat :=
  if !s.isEmpty && s.all Char.isDigit then some (Nat.ofDigitChars 10 s 0) else none

/-- The least positive number that does not fit into a word of 64 bits. -/
def wordBound : Int := 9223372036854775808

/-- The number `n` as a 64-bit word, when it fits. -/
def word? (n : Int) : Option Int64 :=
  if -wordBound ≤ n ∧ n < wordBound then some (Int64.ofInt n) else none

/-- The 64-bit number written as `s`: a sign or none, then digits. -/
def signed? : List Char → Option Int64
  | '+' :: s => (natural? s).bind fun n => word? n
  | '-' :: s => (natural? s).bind fun n => word? (-n)
  | s => (natural? s).bind fun n => word? n

/-- A word that is written out and measured again is itself. -/
@[simp] theorem word?_toInt (w : Int64) : word? w.toInt = some w := by
  rw [word?, if_pos ⟨w.le_toInt, w.toInt_lt⟩, Int64.ofInt_toInt]

/-- A number fits into a word iff some word has it as its value. -/
theorem word?_eq_some_iff {n : Int} {w : Int64} : word? n = some w ↔ w.toInt = n := by
  constructor
  · intro h
    simp only [word?] at h
    split at h
    · next hn =>
      obtain rfl := Option.some.inj h
      exact Int64.toInt_ofInt_of_le hn.1 hn.2
    · contradiction
  · rintro rfl
    exact word?_toInt w

end TexTree.Numeral

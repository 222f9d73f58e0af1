/-
TexTree/Text/Hex.lean

Hexadecimal notation of a fixed width, as escapes use it.  Writing uses small
letters; reading takes both.

    read? (write w n) = some n      whenever n < 16 ^ w
-/

namespace TexTree.Hex

/-- The value of a hexadecimal digit. -/
def digit? (c : Char) : Option Nat :=
  let n := c.toNat
  if 0x30 ≤ n ∧ n ≤ 0x39 then some (n - 0x30)
  else if 0x61 ≤ n ∧ n ≤ 0x66 then some (n - 0x61 + 10)
  else if 0x41 ≤ n ∧ n ≤ 0x46 then some (n - 0x41 + 10)
  else none

/-- The last `width` hexadecimal digits of `n`. -/
def write : (width : Nat) → (n : Nat) → List Char
  | 0, _ => []
  | width + 1, n => write width (n / 16) ++ [Nat.digitChar (n % 16)]

/-- Reads on from the value of the digits before. -/
def readFrom (value : Nat) : List Char → Option Nat
  | [] => some value
  | c :: s => (digit? c).bind fun d => readFrom (value * 16 + d) s

/-- The number with hexadecimal digits `s`. -/
def read? (s : List Char) : Option Nat := readFrom 0 s

/-! ### Writing, then reading -/

@[simp] theorem length_write (width n : Nat) : (write width n).length = width := by
  induction width generalizing n with
  | zero => rfl
  | succ w ih => simp [write, ih]

theorem digit?_digitChar {d : Nat} (h : d < 16) : digit? (Nat.digitChar d) = some d := by
  revert d; decide

theorem readFrom_append (s t : List Char) (value : Nat) :
    readFrom value (s ++ t) = (readFrom value s).bind fun v => readFrom v t := by
  induction s generalizing value with
  | nil => rfl
  | cons c s ih => cases h : digit? c <;> simp [readFrom, h, ih]

/-- What is written is read back, as long as the width suffices. -/
theorem read?_write {width n : Nat} (h : n < Nat.pow 16 width) : read? (write width n) = some n := by
  induction width generalizing n with
  | zero => obtain rfl : n = 0 := Nat.lt_one_iff.mp h; rfl
  | succ w ih =>
    have hn : n / 16 < Nat.pow 16 w := Nat.div_lt_of_lt_mul (Nat.mul_comm 16 _ ▸ h)
    have hd := digit?_digitChar (Nat.mod_lt n (by decide : 0 < 16))
    have hr : readFrom 0 (write w (n / 16)) = some (n / 16) := ih hn
    simp only [read?, write, readFrom_append, hr, Option.bind_some, readFrom, hd]
    congr 1
    omega

end TexTree.Hex

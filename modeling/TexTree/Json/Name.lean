/-
TexTree/Json/Name.lean

When the name of an object's member is the name of a field.  Names are compared
without regard to case: the letters a to z are folded to capitals, and so are
the two characters outside ASCII whose capitals are K and S.

    sameName a b     a and b are the same after folding
-/

namespace TexTree.Json

/-- A character of a name, folded. -/
def foldChar (c : Char) : Char :=
  let n := c.toNat
  if 0x61 ≤ n ∧ n ≤ 0x7a then Char.ofNat (n - 0x20)
  else if n = 0x212a then 'K'
  else if n = 0x17f then 'S'
  else c

/-- A name, folded. -/
def foldName (s : String) : List Char := s.toList.map foldChar

/-- Two names are the same but for case. -/
def sameName (a b : String) : Bool := foldName a == foldName b

/-- A name is the same as itself. -/
@[simp] theorem sameName_self (a : String) : sameName a a = true := by
  simp [sameName]

end TexTree.Json

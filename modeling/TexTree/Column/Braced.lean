/-
TexTree/Column/Braced.lean

The group in braces at the start of a text.

    braced cs      the text between the first brace and the one that closes it,
                   and the text behind that

A group that is not closed goes on to the end of the text; where no group stands,
nothing is taken.
-/

namespace TexTree

/-- A group: what stands in it, what stands behind it, and whether it is closed. -/
structure Braced where
  content : List Char
  rest : List Char
  closed : Bool
  deriving DecidableEq

/-- The rest of a group, inside `depth` further groups; `seen` is what has been
read of it, last first. -/
def closing (depth : Nat) (seen : List Char) : List Char → Braced
  | [] => ⟨seen.reverse, [], false⟩
  | c :: cs =>
    if c = '\x7b' then closing (depth + 1) (c :: seen) cs
    else if c = '\x7d' then
      match depth with
      | 0 => ⟨seen.reverse, cs, true⟩
      | depth + 1 => closing depth (c :: seen) cs
    else closing depth (c :: seen) cs

/-- The group at the start of a text. -/
def braced : List Char → Braced
  | [] => ⟨[], [], false⟩
  | c :: cs => if c = '\x7b' then closing 0 [] cs else ⟨[], c :: cs, false⟩

theorem length_rest_closing (depth : Nat) (seen cs : List Char) :
    (closing depth seen cs).rest.length ≤ cs.length := by
  fun_induction closing depth seen cs <;> simp_all <;> omega

theorem length_content_closing (depth : Nat) (seen cs : List Char) :
    (closing depth seen cs).content.length ≤ seen.length + cs.length := by
  fun_induction closing depth seen cs <;> simp_all <;> omega

/-- What stands behind a group is no longer than the text. -/
theorem length_rest_braced (cs : List Char) : (braced cs).rest.length ≤ cs.length := by
  cases cs with
  | nil => simp [braced]
  | cons c cs =>
    simp only [braced]
    split
    · exact Nat.le_succ_of_le (length_rest_closing 0 [] cs)
    · simp

/-- What stands in a group is no longer than the text. -/
theorem length_content_braced (cs : List Char) : (braced cs).content.length ≤ cs.length := by
  cases cs with
  | nil => simp [braced]
  | cons c cs =>
    simp only [braced]
    split
    · have := length_content_closing 0 [] cs
      simp only [List.length_nil, List.length_cons] at this ⊢
      omega
    · simp

end TexTree

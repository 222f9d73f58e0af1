/-
TexTree/Text/Blank.lean

White space, and cutting it off both ends of a text.

    isBlank c      c is a white space character of the Unicode standard
    trim s         s without the blanks at its two ends

Texts are lists of characters here, so that every cut is a `dropWhile`.
-/

namespace TexTree

/-! ### White space -/

/-- White space: the five control characters from tab to carriage return, the
space, the next-line control, the no-break space, and the separators of the
higher blocks.  The characters of zero width are not among them. -/
def isBlank (c : Char) : Bool :=
  let n := c.toNat
  (0x09 ≤ n && n ≤ 0x0d) || n == 0x20 || n == 0x85 || n == 0xa0 || n == 0x1680 ||
    (0x2000 ≤ n && n ≤ 0x200a) || n == 0x2028 || n == 0x2029 || n == 0x202f ||
    n == 0x205f || n == 0x3000

/-! ### Trimming -/

/-- A text without the blanks at its start. -/
def trimStart (s : List Char) : List Char := s.dropWhile isBlank

/-- A text without the blanks at its end. -/
def trimEnd (s : List Char) : List Char := (s.reverse.dropWhile isBlank).reverse

/-- A text without the blanks at its two ends. -/
def trim (s : List Char) : List Char := trimEnd (trimStart s)

/-- A list without the elements at its two ends of which `p` holds. -/
def trimBy {α : Type} (p : α → Bool) (s : List α) : List α :=
  ((s.dropWhile p).reverse.dropWhile p).reverse

theorem trim_eq_trimBy (s : List Char) : trim s = trimBy isBlank s := rfl

/-- A text that starts with blanks is trimmed as if they were not there. -/
theorem trimStart_append {s : List Char} (h : ∀ c ∈ s, isBlank c) (t : List Char) :
    trimStart (s ++ t) = trimStart t := by
  induction s with
  | nil => rfl
  | cons c s ih =>
    have hc : isBlank c := h c (by simp)
    simpa [trimStart, List.dropWhile_cons, hc] using ih fun d hd => h d (by simp [hd])

/-- A text that ends with blanks is trimmed as if they were not there. -/
theorem trimEnd_append {t : List Char} (h : ∀ c ∈ t, isBlank c) (s : List Char) :
    trimEnd (s ++ t) = trimEnd s := by
  have := trimStart_append (s := t.reverse) (by simpa using h) s.reverse
  simp only [trimStart] at this
  simp [trimEnd, List.reverse_append, this]

end TexTree

/-
TexTree/Proofs/Text/Cut.lean

Cutting a text where a class of characters ends.  A scanner takes characters as
long as they belong to the class; where it stops depends on what follows only
through the first character of it.

    Stops p s        s is empty or starts with a character outside p

With `Stops p s`, the text `r ++ s` is cut between `r` and `s` whenever all of
`r` is in the class (`takeWhile_append_stops`, `dropWhile_append_stops`), and in
any case where `r` is cut when it stands alone (`takeWhile_append_of_stops`,
`dropWhile_append_of_stops`).

Where a text is cut at every occurrence of one element instead, what holds of the pieces
is carried to the whole from the first piece on (`inductionOnPieces`).
-/
import Mathlib.Data.List.TakeWhile

namespace TexTree

variable {α : Type} {p : α → Bool}

/-- The list is empty or starts with an element outside `p`. -/
def Stops (p : α → Bool) (s : List α) : Prop := ∀ a ∈ s.head?, p a = false

@[simp] theorem stops_nil : Stops p [] := by
  intro a ha
  cases ha

@[simp] theorem stops_cons {a : α} {s : List α} : Stops p (a :: s) ↔ p a = false := by
  simp [Stops]

theorem takeWhile_of_stops {s : List α} (h : Stops p s) : s.takeWhile p = [] := by
  cases s with
  | nil => rfl
  | cons a s => rw [List.takeWhile_cons, if_neg (by simp [stops_cons.mp h])]

theorem dropWhile_of_stops {s : List α} (h : Stops p s) : s.dropWhile p = s := by
  cases s with
  | nil => rfl
  | cons a s => rw [List.dropWhile_cons, if_neg (by simp [stops_cons.mp h])]

/-- What stands in front of a stop is taken. -/
theorem takeWhile_append_stops {r s : List α} (hr : ∀ a ∈ r, p a) (hs : Stops p s) :
    (r ++ s).takeWhile p = r := by
  rw [List.takeWhile_append_of_pos hr, takeWhile_of_stops hs, List.append_nil]

/-- What stands in front of a stop is dropped. -/
theorem dropWhile_append_stops {r s : List α} (hr : ∀ a ∈ r, p a) (hs : Stops p s) :
    (r ++ s).dropWhile p = s := by
  rw [List.dropWhile_append_of_pos hr, dropWhile_of_stops hs]

/-- A stop behind a text is like its end: no more is taken. -/
theorem takeWhile_append_of_stops (r : List α) {s : List α} (hs : Stops p s) :
    (r ++ s).takeWhile p = r.takeWhile p := by
  induction r with
  | nil => exact takeWhile_of_stops hs
  | cons a r ih =>
    rw [List.cons_append, List.takeWhile_cons, List.takeWhile_cons, ih]

/-- A stop behind a text is like its end: it is not dropped. -/
theorem dropWhile_append_of_stops (r : List α) {s : List α} (hs : Stops p s) :
    (r ++ s).dropWhile p = r.dropWhile p ++ s := by
  induction r with
  | nil => exact dropWhile_of_stops hs
  | cons a r ih =>
    rw [List.cons_append, List.dropWhile_cons, List.dropWhile_cons, ih]
    split <;> rfl

/-- Two classes that agree on the elements of a list take the same part of it. -/
theorem takeWhile_congr {q : α → Bool} {s : List α} (h : ∀ a ∈ s, p a = q a) :
    s.takeWhile p = s.takeWhile q := by
  induction s with
  | nil => rfl
  | cons a s ih =>
    obtain ⟨ha, hs⟩ := List.forall_mem_cons.mp h
    rw [List.takeWhile_cons, List.takeWhile_cons, ha, ih hs]

/-- Two classes that agree on the elements of a list leave the same rest of it. -/
theorem dropWhile_congr {q : α → Bool} {s : List α} (h : ∀ a ∈ s, p a = q a) :
    s.dropWhile p = s.dropWhile q := by
  induction s with
  | nil => rfl
  | cons a s ih =>
    obtain ⟨ha, hs⟩ := List.forall_mem_cons.mp h
    rw [List.dropWhile_cons, List.dropWhile_cons, ha, ih hs]

/-- Induction over the pieces of a list between the occurrences of `c`. -/
theorem inductionOnPieces {c : α} {motive : List α → Prop}
    (last : ∀ s, c ∉ s → motive s)
    (front : ∀ s t, c ∉ s → motive t → motive (s ++ c :: t)) (s : List α) : motive s := by
  by_cases hc : c ∈ s
  · obtain ⟨t, u, hs, ht⟩ := List.eq_append_cons_of_mem hc
    rw [hs]
    exact front t u ht (inductionOnPieces last front u)
  · exact last s hc
termination_by s.length
decreasing_by
  rw [hs, List.length_append, List.length_cons]
  omega

end TexTree

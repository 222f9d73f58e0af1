/-
TexTree/Proofs/Text/Trim.lean

Trimming and what stands at the ends of a text.  Blanks that are put in front of a
text or behind it are trimmed away with those that stand there,

    trim (blanks ++ s ++ blanks)  =  trim s

and characters can be taken out of a text before it is trimmed or after:

    filter keep (trim s)  =  trim (filter keep s)       when only blanks are taken out

When all blanks are among what is taken out, nothing is left to be trimmed
(`filter_trimBy_eq`).
-/
import Mathlib.Data.List.Basic
import Mathlib.Data.List.TakeWhile
import TexTree.Text.Blank

namespace TexTree

variable {s t : List Char}

/-! ### Blanks at the ends -/

theorem trim_append_left (h : ∀ c ∈ s, isBlank c) (t : List Char) : trim (s ++ t) = trim t := by
  rw [trim, trim, trimStart_append h]

theorem trim_append_right (h : ∀ c ∈ t, isBlank c) (s : List Char) : trim (s ++ t) = trim s := by
  rw [trim, trim, trimStart, trimStart, List.dropWhile_append]
  split
  · -- of a text of blanks nothing is left, with more blanks behind it or not
    next hs =>
    rw [List.isEmpty_iff.mp hs, List.dropWhile_eq_nil_iff.mpr h]
  · exact trimEnd_append h _

/-! ### Elements taken out

For lists of any elements, of which those of a given kind are trimmed away. -/

section Lists

variable {α β : Type} {p keep : α → Bool}

/-- A trimmed list is what stands between the elements at the ends. -/
theorem exists_eq_append_trimBy (p : α → Bool) (s : List α) :
    ∃ lead trail, (∀ x ∈ lead, p x) ∧ (∀ x ∈ trail, p x) ∧ s = lead ++ trimBy p s ++ trail := by
  refine ⟨s.takeWhile p, ((s.dropWhile p).reverse.takeWhile p).reverse,
    fun x hx => List.mem_takeWhile_imp hx,
    fun x hx => List.mem_takeWhile_imp (List.mem_reverse.mp hx), ?_⟩
  rw [List.append_assoc, trimBy, ← List.reverse_append, List.takeWhile_append_dropWhile,
    List.reverse_reverse, List.takeWhile_append_dropWhile]

/-- What may be trimmed away can be taken out before trimming or after. -/
theorem filter_trimBy (hkeep : ∀ x, keep x = false → p x) (s : List α) :
    (trimBy p s).filter keep = trimBy p (s.filter keep) := by
  have hclass : (fun x => !keep x || p x) = p := by
    funext x
    cases hx : keep x with
    | false => rw [hkeep x hx]; rfl
    | true => rfl
  have hstart : ∀ t : List α, (t.dropWhile p).filter keep = (t.filter keep).dropWhile p := by
    intro t
    rw [List.dropWhile_filter, hclass]
  rw [trimBy, trimBy, List.filter_reverse, hstart, List.filter_reverse, hstart]

/-- Where all that is trimmed away is taken out, trimming takes nothing away. -/
theorem filter_trimBy_eq (hkeep : ∀ x, p x → keep x = false) (s : List α) :
    (trimBy p s).filter keep = s.filter keep := by
  have hnil : ∀ {t : List α}, (∀ x ∈ t, p x) → t.filter keep = [] := by
    intro t ht
    rw [List.filter_eq_nil_iff]
    intro x hx
    simp [hkeep x (ht x hx)]
  obtain ⟨lead, trail, hlead, htrail, hs⟩ := exists_eq_append_trimBy p s
  conv_rhs => rw [hs, List.filter_append, List.filter_append, hnil hlead, hnil htrail,
    List.nil_append, List.append_nil]

theorem map_trimBy (f : β → α) (s : List β) :
    (trimBy (fun x => p (f x)) s).map f = trimBy p (s.map f) := by
  have hstart : ∀ t : List β, (t.dropWhile fun x => p (f x)).map f = (t.map f).dropWhile p := by
    intro t
    rw [List.dropWhile_map]
    rfl
  rw [trimBy, trimBy, List.map_reverse, hstart, List.map_reverse, hstart]

/-- **What starts and ends with elements that are not trimmed away stays whole**, and what is
trimmed on its two sides does not depend on it. -/
theorem exists_trimBy_around (p : α → Bool) (s t : List α) :
    ∃ left right, ∀ m, (∃ x ∈ m.head?, p x = false) → (∃ y ∈ m.getLast?, p y = false) →
      trimBy p (s ++ m ++ t) = left ++ m ++ right := by
  have hdrop : ∀ u v : List α, (∃ x ∈ v.head?, p x = false) →
      (u ++ v).dropWhile p = u.dropWhile p ++ v := by
    intro u v ⟨x, hx, hpx⟩
    obtain ⟨v, rfl⟩ := List.head?_eq_some_iff.mp hx
    rw [List.dropWhile_append]
    split
    · next hu => rw [List.isEmpty_iff.mp hu, List.dropWhile_cons_of_neg (by simp [hpx]),
        List.nil_append]
    · rfl
  refine ⟨s.dropWhile p, (t.reverse.dropWhile p).reverse, fun m hhead hlast => ?_⟩
  have hwhole : ∃ x ∈ (m ++ t).head?, p x = false := by
    obtain ⟨x, hx, hpx⟩ := hhead
    obtain ⟨m, rfl⟩ := List.head?_eq_some_iff.mp hx
    exact ⟨x, rfl, hpx⟩
  have hreverse : ∃ y ∈ (m.reverse ++ (s.dropWhile p).reverse).head?, p y = false := by
    obtain ⟨y, hy, hpy⟩ := hlast
    rw [← List.head?_reverse] at hy
    obtain ⟨m', hm'⟩ := List.head?_eq_some_iff.mp hy
    exact ⟨y, by rw [hm']; rfl, hpy⟩
  rw [trimBy, List.append_assoc, hdrop s _ hwhole, List.reverse_append, List.reverse_append,
    List.append_assoc, hdrop _ _ hreverse, List.reverse_append, List.reverse_append,
    List.reverse_reverse, List.reverse_reverse]

end Lists

end TexTree

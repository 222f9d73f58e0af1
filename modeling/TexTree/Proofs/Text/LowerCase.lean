/-
TexTree/Proofs/Text/LowerCase.lean

What lower case does to a letter.  The runs of capital letters are apart from each other, so
the run that a letter stands in says where its lower-case letter is,

    lower c  =  c + shift       in the run with that shift

and a character in no run is left as it is.  Below 128 these are the letters from A to Z
(`lower_of_lt`).
-/
import Mathlib.Data.List.Chain
import TexTree.Text.LowerCase

namespace TexTree

variable {r r' : LetterRun} {c : Char}

theorem LetterRun.bounds_of_covers {n : Nat} (h : r.covers n) : r.first ≤ n ∧ n ≤ r.last := by
  simp only [covers, Bool.and_eq_true, decide_eq_true_eq] at h
  exact h.1

/-- A run ends in front of another one. -/
def LetterRun.Precedes (r r' : LetterRun) : Prop := r.last < r'.first ∧ r'.first ≤ r'.last

instance : DecidableRel LetterRun.Precedes := fun r r' =>
  inferInstanceAs (Decidable (r.last < r'.first ∧ r'.first ≤ r'.last))

instance : IsTrans LetterRun LetterRun.Precedes where
  trans _ _ _ h h' := ⟨Nat.lt_trans (Nat.lt_of_lt_of_le h.1 h.2) h'.1, h'.2⟩

/-- **The runs are listed in ascending order**, each behind the last letter of the one before. -/
theorem pairwise_lowerRuns : lowerRuns.Pairwise LetterRun.Precedes := by
  have hchain : lowerRuns.IsChain LetterRun.Precedes := by decide +kernel
  exact hchain.pairwise

/-- **A capital letter moves by the shift of its run**, since no other run has it. -/
theorem lower_of_covers (hr : r ∈ lowerRuns) (hc : r.covers c.toNat) :
    lower c = Char.ofNat (c.toNat + r.shift).toNat := by
  have hfind : lowerRuns.find? (·.covers c.toNat) = some r := by
    obtain ⟨front, behind, hruns⟩ := List.append_of_mem hr
    have hapart := pairwise_lowerRuns
    rw [hruns, List.pairwise_append] at hapart
    rw [List.find?_eq_some_iff_append]
    refine ⟨hc, front, behind, hruns, fun r' hr' => ?_⟩
    have hlt : r'.last < r.first := (hapart.2.2 r' hr' r List.mem_cons_self).1
    rw [Bool.not_eq_true', ← Bool.not_eq_true]
    intro hcovers
    obtain ⟨hfirst, -⟩ := LetterRun.bounds_of_covers hc
    obtain ⟨-, hlast⟩ := LetterRun.bounds_of_covers hcovers
    exact absurd (Nat.le_trans hfirst hlast) (Nat.not_le.mpr hlt)
  rw [lower, hfind]

theorem lower_eq_self (h : ∀ r ∈ lowerRuns, ¬r.covers c.toNat) : lower c = c := by
  rw [lower, List.find?_eq_none.mpr h]

/-- **Below 128 only the letters from A to Z have a lower-case letter.** -/
theorem lower_of_lt (h : c.toNat < 0x80) : lower c = c.toLower := by
  have hruns : lowerRuns = ⟨0x41, 0x5a, 1, 32⟩ :: lowerRuns.tail := rfl
  have hfirst : ∀ r ∈ lowerRuns.tail, 0x80 ≤ r.first := by decide +kernel
  have hall : ∀ n : Fin 0x80, (Char.ofNat n).toLower =
      if LetterRun.covers ⟨0x41, 0x5a, 1, 32⟩ n then Char.ofNat (n + 32) else Char.ofNat n := by
    decide +kernel
  have hc := hall ⟨c.toNat, h⟩
  rw [Char.ofNat_toNat] at hc
  by_cases hcovers : LetterRun.covers ⟨0x41, 0x5a, 1, 32⟩ c.toNat
  · rw [hc, if_pos hcovers, lower_of_covers (hruns ▸ List.mem_cons_self) hcovers]
    rfl
  · have hnone : ∀ r ∈ lowerRuns, ¬r.covers c.toNat := by
      rw [hruns, List.forall_mem_cons]
      refine ⟨hcovers, fun r hr hr' => ?_⟩
      have hle := Nat.le_trans (hfirst r hr) (LetterRun.bounds_of_covers hr').1
      exact absurd h (Nat.not_lt.mpr hle)
    rw [hc, if_neg hcovers, lower_eq_self hnone]

end TexTree

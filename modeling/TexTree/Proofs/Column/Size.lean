/-
TexTree/Proofs/Column/Size.lean

How many columns a preamble can have.  A repeat makes at most 256 copies, and repeats stand
inside each other no deeper than there are stars, so

    number of columns  ≤  number of characters · 256 ^ number of stars

for every text (`length_columnsOfBytes_le`), whatever its counts are and however its groups
are closed.

Design.  The right side is a number of the text alone, its `capacity`.  It grows with the text
and is at least the sum of what two texts side by side have (`capacity_append_le`); a
character in front makes room for one column more, and a star for 256 times as many.  What a
sign takes for its groups stands in the text side by side (`TakesGroup.sublist`), so there is
nothing else to know about groups.
-/
import Mathlib.Algebra.Group.Nat.Defs
import TexTree.Proofs.Column.Expansion
import TexTree.Proofs.Text.Utf8Count

namespace TexTree

namespace Preamble

/-! ### Room for columns -/

/-- The number of characters times 256 to the power of the number of stars. -/
def capacity (cs : List Char) : Nat := cs.length * 256 ^ cs.count '*'

theorem capacity_mono {s t : List Char} (hlength : s.length ≤ t.length)
    (hstars : s.count '*' ≤ t.count '*') : capacity s ≤ capacity t :=
  Nat.mul_le_mul hlength (Nat.pow_le_pow_right (by decide) hstars)

theorem capacity_le_of_sublist {s t : List Char} (h : s.Sublist t) : capacity s ≤ capacity t :=
  capacity_mono h.length_le (h.count_le '*')

/-- Two texts side by side have room for the columns of both. -/
theorem capacity_append_le (s t : List Char) : capacity s + capacity t ≤ capacity (s ++ t) := by
  have hpow : ∀ u : List Char, u.Sublist (s ++ t) →
      256 ^ u.count '*' ≤ 256 ^ (s ++ t).count '*' := fun u hu =>
    Nat.pow_le_pow_right (by decide) (hu.count_le '*')
  calc capacity s + capacity t
      ≤ s.length * 256 ^ (s ++ t).count '*' + t.length * 256 ^ (s ++ t).count '*' :=
        Nat.add_le_add (Nat.mul_le_mul_left _ (hpow s (List.sublist_append_left s t)))
          (Nat.mul_le_mul_left _ (hpow t (List.sublist_append_right s t)))
    _ = capacity (s ++ t) := by rw [capacity, List.length_append, Nat.add_mul]

/-- A character has room for a column. -/
theorem capacity_singleton_pos (c : Char) : 1 ≤ capacity [c] := by
  rw [capacity, List.length_singleton, Nat.one_mul]
  exact Nat.one_le_pow _ _ (by decide)

theorem capacity_lt_cons (c : Char) (cs : List Char) : capacity cs < capacity (c :: cs) := by
  have happend := capacity_append_le [c] cs
  have hone := capacity_singleton_pos c
  rw [List.singleton_append] at happend
  omega

/-- A star makes room for 256 times as many columns. -/
theorem capacity_star (cs : List Char) : 256 * capacity cs ≤ capacity ('*' :: cs) := by
  have hstars : ('*' :: cs).count '*' = cs.count '*' + 1 := List.count_cons_self
  calc 256 * capacity cs = cs.length * 256 ^ (cs.count '*' + 1) := by
        rw [capacity, Nat.pow_succ, Nat.mul_left_comm, Nat.mul_comm 256]
    _ ≤ capacity ('*' :: cs) := by
        rw [capacity, hstars]
        exact Nat.mul_le_mul_right _ (Nat.le_succ _)

/-! ### The marks of a text -/

theorem copyCount_le (literal : List Char) : copyCount literal ≤ 256 := by
  rw [copyCount]
  split
  · omega
  · exact Nat.zero_le _

theorem capacity_le_of_takesGroup {cs w rest : List Char} (h : TakesGroup cs w rest) :
    capacity w + capacity rest ≤ capacity cs :=
  (capacity_append_le w rest).trans (capacity_le_of_sublist h.sublist)

/-- **A text has room for the columns that it expands to.** -/
theorem Expands.countP_le {cs : List Char} {ms : List ColumnMark} (h : Expands cs ms) :
    ms.countP ColumnMark.isColumn ≤ capacity cs := by
  induction h with
  | nil => exact Nat.zero_le _
  | @rule cs ms h ih =>
    rw [List.countP_cons_of_neg (by decide)]
    exact ih.trans (capacity_lt_cons _ cs).le
  | @column cs ms align hline h ih =>
    rw [List.countP_cons_of_pos rfl]
    exact Nat.succ_le_of_lt (ih.trans_lt (capacity_lt_cons _ cs))
  | @paragraph cs width rest ms align hparagraph hwidth h ih =>
    have hgroup := capacity_le_of_takesGroup hwidth
    have hletter := capacity_lt_cons align.letter cs
    rw [List.countP_cons_of_pos rfl]
    omega
  | @decoration cs inside rest ms sign hinside h ih =>
    have hgroup := capacity_le_of_takesGroup hinside
    have hsign := capacity_lt_cons sign.sign cs
    omega
  | @repeated cs count rest body rest' copy ms hcount hbody hcopy h ihcopy ih =>
    have hgroups := (capacity_le_of_takesGroup hbody).trans
      ((Nat.le_add_left _ _).trans (capacity_le_of_takesGroup hcount))
    have hcopies : copyCount count * copy.countP ColumnMark.isColumn ≤ 256 * capacity body :=
      Nat.mul_le_mul (copyCount_le count) ihcopy
    have hstar := capacity_star cs
    rw [List.countP_append, List.countP_flatten, List.map_replicate, List.sum_replicate_nat]
    omega
  | @ignored c cs ms hrule halign hsign hstar h ih => exact ih.trans (capacity_lt_cons c cs).le

/-- As many columns are laid out as there are among the marks. -/
theorem length_layoutFrom (left : Bool) (ms : List ColumnMark) :
    (layoutFrom left ms).length = ms.countP ColumnMark.isColumn := by
  fun_induction layoutFrom left ms with
  | case1 => rfl
  | case2 left ms ih => rw [ih, List.countP_cons_of_neg (by decide)]
  | case3 left align width ms ih => rw [List.length_cons, ih, List.countP_cons_of_pos rfl]

/-! ### Texts -/

/-- Without its blanks a text has no more room. -/
theorem capacity_solidText_le (raw : List UInt8) :
    capacity (solidText raw) ≤ capacity (Utf8.decode raw) := by
  refine capacity_mono (Utf8.length_decode_filter_le (fun b hb => solid_of_le ?_) raw)
    (Utf8.count_decode_filter (by decide) rfl raw).le
  have hvalid : b.toNat.isValidChar := .inl (Nat.lt_trans b.toNat_lt (by decide))
  rw [Char.ofNat, dif_pos hvalid]
  exact UInt8.le_iff_toNat_le.mp hb

/-- **A preamble has at most as many columns as characters, times 256 for each star.**  So it
has no more columns than characters where there is no star; and a repeat, whatever is taken for
its count, stands for at most 256 copies of what its body stands for.  Texts are bytes, and need
not be well-formed. -/
theorem length_columnsOfBytes_le (raw : List UInt8) :
    (columnsOfBytes raw).length ≤
      (Utf8.decode raw).length * 256 ^ (Utf8.decode raw).count '*' ∧
    ('*' ∉ Utf8.decode raw → (columnsOfBytes raw).length ≤ (Utf8.decode raw).length) ∧
    ∀ cs count rest body rest' : List Char, TakesGroup cs count rest → TakesGroup rest body rest' →
      ∃ n ≤ 256, marks ('*' :: cs) = (List.replicate n (marks body)).flatten ++ marks rest' := by
  have hbound : (columnsOfBytes raw).length ≤ capacity (Utf8.decode raw) := by
    obtain ⟨ms, hms⟩ := exists_expands (solidText raw)
    rw [hms.columnsOfBytes_eq, layout, length_layoutFrom]
    exact hms.countP_le.trans (capacity_solidText_le raw)
  refine ⟨hbound, fun hstar => ?_, fun cs count rest body rest' hcount hbody => ?_⟩
  · rwa [capacity, List.count_eq_zero_of_not_mem hstar, Nat.pow_zero, Nat.mul_one] at hbound
  · refine ⟨copyCount count, copyCount_le count, ?_⟩
    exact (Expands.repeated hcount hbody (expands_iff.mpr rfl) (expands_iff.mpr rfl)).marks_eq

/-- Nine characters without a star give at most nine columns; a count of 300 makes no more
than 256 copies. -/
theorem length_columns_without_star :
    '*' ∉ Utf8.decode (Utf8.bytes "|c p\x7b3cm\x7d") ∧
    (columnsOfBytes (Utf8.bytes "|c p\x7b3cm\x7d")).length ≤ 9 ∧
    TakesGroup (grouped ['3', '0', '0'] ++ (grouped ['c'] ++ ['l'])) ['3', '0', '0']
      (grouped ['c'] ++ ['l']) ∧
    TakesGroup (grouped ['c'] ++ ['l']) ['c'] ['l'] ∧
    ∃ n ≤ 256, marks ('*' :: (grouped ['3', '0', '0'] ++ (grouped ['c'] ++ ['l']))) =
      (List.replicate n (marks ['c'])).flatten ++ marks ['l'] := by
  have hstar : '*' ∉ Utf8.decode (Utf8.bytes "|c p\x7b3cm\x7d") := by decide +kernel
  have hcount : TakesGroup (grouped ['3', '0', '0'] ++ (grouped ['c'] ++ ['l'])) ['3', '0', '0']
      (grouped ['c'] ++ ['l']) := .closed _ (by decide)
  have hbody : TakesGroup (grouped ['c'] ++ ['l']) ['c'] ['l'] := .closed _ (by decide)
  obtain ⟨-, hlength, hcopies⟩ := length_columnsOfBytes_le (Utf8.bytes "|c p\x7b3cm\x7d")
  exact ⟨hstar, hlength hstar, hcount, hbody, hcopies _ _ _ _ _ hcount hbody⟩

end Preamble

end TexTree

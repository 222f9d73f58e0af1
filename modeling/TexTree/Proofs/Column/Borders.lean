/-
TexTree/Proofs/Column/Borders.lean

The border between two columns.  Each column is given its borders by a look at the marks
next to it, and two columns that follow each other have only rules between them:

    .. column a, rule, .. , rule, column b ..

With no rule there, each of them is the mark next to the other and neither has a border on
that side; with rules there, the first of them is next to `a` and the last next to `b`, and
both have one.

Main result: neighbours agree on the border between them, and there is one exactly when the
text of the preamble expands to a rule between them (`neighbours_share_border`).  The text is
any text, and the rule may come from either side, from a copy or from between copies.

Design.  `layoutFrom` goes through the marks once and remembers only whether the last one was
a rule.  What it gives first is found behind the rules at the start of the marks
(`exists_rules_of_head?`), and what it gives next is found there again after a column.
-/
import TexTree.Proofs.Column.Expansion

namespace TexTree

namespace Preamble

/-! ### Columns that follow each other -/

/-- The columns `a` and `b` follow each other among the marks, behind `i` others, with so many
rules and nothing else between them. -/
def Neighbours (ms : List ColumnMark) (i : Nat) (a b : Column) (rules : Nat) : Prop :=
  ∃ front v w behind,
    ms = front ++ .column a.align v :: (List.replicate rules .rule ++ .column b.align w :: behind) ∧
      front.countP ColumnMark.isColumn = i ∧ a.width = String.ofList v ∧ b.width = String.ofList w

section Neighbours

variable {ms : List ColumnMark} {i rules : Nat} {a b : Column}

/-- A rule in front changes nothing. -/
theorem Neighbours.behind_rule (h : Neighbours ms i a b rules) :
    Neighbours (.rule :: ms) i a b rules := by
  obtain ⟨front, v, w, behind, rfl, hfront, hv, hw⟩ := h
  exact ⟨.rule :: front, v, w, behind, rfl, hfront, hv, hw⟩

/-- A column in front is one more. -/
theorem Neighbours.behind_column (align : Align) (width : List Char)
    (h : Neighbours ms i a b rules) : Neighbours (.column align width :: ms) (i + 1) a b rules := by
  obtain ⟨front, v, w, behind, rfl, hfront, hv, hw⟩ := h
  refine ⟨.column align width :: front, v, w, behind, rfl, ?_, hv, hw⟩
  rw [List.countP_cons_of_pos rfl, hfront]

/-! ### Borders -/

theorem startsWithRule_replicate (rules : Nat) (align : Align) (width : List Char)
    (behind : List ColumnMark) :
    startsWithRule (List.replicate rules .rule ++ .column align width :: behind) =
      decide (0 < rules) := by
  cases rules with
  | zero => rfl
  | succ rules => simp [List.replicate_succ, startsWithRule]

/-- In front of the first column stand rules, and it has a border on the left when there are
some or the marks stand behind one. -/
theorem exists_rules_of_head? {left : Bool} (h : (layoutFrom left ms)[0]? = some b) :
    ∃ rules w behind, ms = List.replicate rules .rule ++ .column b.align w :: behind ∧
      b.width = String.ofList w ∧ b.borderLeft = (left || decide (0 < rules)) := by
  induction ms generalizing left with
  | nil => cases h
  | cons m ms ih =>
    cases m with
    | rule =>
      obtain ⟨rules, w, behind, rfl, hw, hleft⟩ := ih h
      refine ⟨rules + 1, w, behind, rfl, hw, ?_⟩
      rw [hleft, decide_eq_true (Nat.succ_pos rules), Bool.true_or, Bool.or_true]
    | column align width =>
      obtain rfl : _ = b := Option.some.inj h
      exact ⟨0, width, ms, rfl, rfl, (Bool.or_false _).symm⟩

/-- **Two columns that follow each other have a border between them when there is a rule
between them**, and both have it. -/
theorem exists_neighbours {left : Bool} (ha : (layoutFrom left ms)[i]? = some a)
    (hb : (layoutFrom left ms)[i + 1]? = some b) :
    ∃ rules, Neighbours ms i a b rules ∧
      a.borderRight = decide (0 < rules) ∧ b.borderLeft = decide (0 < rules) := by
  induction ms generalizing left i with
  | nil => cases ha
  | cons m ms ih =>
    cases m with
    | rule =>
      obtain ⟨rules, h, hright, hleft⟩ := ih ha hb
      exact ⟨rules, h.behind_rule, hright, hleft⟩
    | column align width =>
      cases i with
      | zero =>
        -- `a` is this column, and `b` the first one behind it
        obtain rfl : _ = a := Option.some.inj ha
        replace hb : (layoutFrom false ms)[0]? = some b := hb
        obtain ⟨rules, w, behind, rfl, hw, hleft⟩ := exists_rules_of_head? hb
        refine ⟨rules, ⟨[], width, w, behind, rfl, rfl, rfl, hw⟩, ?_, ?_⟩
        · exact startsWithRule_replicate rules b.align w behind
        · rw [hleft, Bool.false_or]
      | succ i =>
        replace hb : (layoutFrom false ms)[i + 1]? = some b := hb
        obtain ⟨rules, h, hright, hleft⟩ := ih ha hb
        exact ⟨rules, h.behind_column align width, hright, hleft⟩

end Neighbours

/-! ### Texts -/

/-- **Neighbouring columns agree on the border between them.**  Whatever the text of a preamble
is, two columns that follow each other have the same border between them, and it is there
exactly when a rule stands between the two in the one list of marks that the text expands to.
Texts are bytes, and need not be well-formed. -/
theorem neighbours_share_border (raw : List UInt8) {i : Nat} {a b : Column}
    (ha : (columnsOfBytes raw)[i]? = some a) (hb : (columnsOfBytes raw)[i + 1]? = some b) :
    a.borderRight = b.borderLeft ∧
      ∃ ms rules, (∀ ms', Expands (solidText raw) ms' ↔ ms' = ms) ∧ Neighbours ms i a b rules ∧
        (a.borderRight = true ↔ 0 < rules) := by
  obtain ⟨ms, hms⟩ := exists_expands (solidText raw)
  rw [hms.columnsOfBytes_eq, layout] at ha hb
  obtain ⟨rules, h, hright, hleft⟩ := exists_neighbours ha hb
  refine ⟨hright.trans hleft.symm, ms, rules, fun ms' => ?_, h, ?_⟩
  · rw [expands_iff, hms.marks_eq, eq_comm]
  · rw [hright, decide_eq_true_eq]

/-- The rule in front of a column is the border of the copy before it; the decoration in front
of the copies is none. -/
theorem neighbours_in_copies :
    (columnsOfBytes (Utf8.bytes "c@\x7b|\x7d*\x7b2\x7d\x7b|l\x7d"))[1]? =
      some ⟨true, .left, "", true⟩ ∧
    (columnsOfBytes (Utf8.bytes "c@\x7b|\x7d*\x7b2\x7d\x7b|l\x7d"))[2]? =
      some ⟨true, .left, "", false⟩ ∧
    ∃ ms rules, Expands (solidText (Utf8.bytes "c@\x7b|\x7d*\x7b2\x7d\x7b|l\x7d")) ms ∧
      Neighbours ms 1 ⟨true, .left, "", true⟩ ⟨true, .left, "", false⟩ rules ∧ 0 < rules := by
  have ha : (columnsOfBytes (Utf8.bytes "c@\x7b|\x7d*\x7b2\x7d\x7b|l\x7d"))[1]? =
      some ⟨true, .left, "", true⟩ := by
    decide +kernel
  have hb : (columnsOfBytes (Utf8.bytes "c@\x7b|\x7d*\x7b2\x7d\x7b|l\x7d"))[1 + 1]? =
      some ⟨true, .left, "", false⟩ := by
    decide +kernel
  obtain ⟨-, ms, rules, hms, h, hborder⟩ := neighbours_share_border _ ha hb
  exact ⟨ha, hb, ms, rules, (hms ms).mpr rfl, h, hborder.mp rfl⟩

end Preamble

end TexTree

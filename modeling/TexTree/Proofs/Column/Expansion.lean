/-
TexTree/Proofs/Column/Expansion.lean

What any text stands for as a preamble, whether its groups are closed, missing or neither:

    Expands cs ms        the text cs, without blanks, stands for the marks ms

There is one rule for each sign.  A sign takes the groups behind it as they are found
(`TakesGroup`), a repeat expands its second group on its own and copies the result, and a
character that is no sign is passed over.

Main result: every text expands to exactly one list of marks, and `marks` computes it
(`expands_iff`).

Design.  `marks` writes nothing out that is not copied, so its recursion does not go into
the body of a repeat without copies; the relation does.  Hence the two are compared from
the side of the relation (`Expands.marks_eq`), and that every text expands is shown by its
length (`exists_expands_cons`, `exists_expands`).
-/
import TexTree.Proofs.Column.Preamble

namespace TexTree

/-- The mark is a column. -/
def ColumnMark.isColumn : ColumnMark → Bool
  | .rule => false
  | .column _ _ => true

namespace Preamble

/-! ### The rules -/

/-- How many copies are made for a text that should be a number: as many as it says, but none
where it is negative or no number of 64 bits, and at most 256. -/
def copyCount (literal : List Char) : Nat :=
  match Numeral.signed? literal with
  | some n => (max 0 (min n.toInt 256)).toNat
  | none => 0

/-- A text without blanks, and the rules and columns that it stands for, copies written out. -/
inductive Expands : List Char → List ColumnMark → Prop
  | nil : Expands [] []
  | rule {cs : List Char} {ms : List ColumnMark} (h : Expands cs ms) :
      Expands ('|' :: cs) (.rule :: ms)
  | column {cs : List Char} {ms : List ColumnMark} (align : Align)
      (hline : align.isParagraph = false) (h : Expands cs ms) :
      Expands (align.letter :: cs) (.column align [] :: ms)
  | paragraph {cs width rest : List Char} {ms : List ColumnMark} (align : Align)
      (hparagraph : align.isParagraph = true) (hwidth : TakesGroup cs width rest)
      (h : Expands rest ms) : Expands (align.letter :: cs) (.column align width :: ms)
  | decoration {cs inside rest : List Char} {ms : List ColumnMark} (sign : Decoration)
      (hinside : TakesGroup cs inside rest) (h : Expands rest ms) : Expands (sign.sign :: cs) ms
  | repeated {cs count rest body rest' : List Char} {copy ms : List ColumnMark}
      (hcount : TakesGroup cs count rest) (hbody : TakesGroup rest body rest')
      (hcopy : Expands body copy) (h : Expands rest' ms) :
      Expands ('*' :: cs) ((List.replicate (copyCount count) copy).flatten ++ ms)
  | ignored {c : Char} {cs : List Char} {ms : List ColumnMark} (hrule : c ≠ '|')
      (halign : ∀ align : Align, c ≠ align.letter) (hsign : ∀ sign : Decoration, c ≠ sign.sign)
      (hstar : c ≠ '*') (h : Expands cs ms) : Expands (c :: cs) ms

/-! ### What is computed is what the rules say -/

theorem copies_eq_copyCount (literal : List Char) : copies literal = copyCount literal := by
  rw [copies, copyCount]
  cases Numeral.signed? literal with
  | none => rfl
  | some n =>
    show min n.toInt.toNat 256 = (max 0 (min n.toInt 256)).toNat
    omega

theorem letter_eq_other {c : Char} (hrule : c ≠ '|') (halign : ∀ align : Align, c ≠ align.letter)
    (hsign : ∀ sign : Decoration, c ≠ sign.sign) (hstar : c ≠ '*') : letter c = .other := by
  have hletters : c ≠ 'c' ∧ c ≠ 'l' ∧ c ≠ 'r' ∧ c ≠ 'p' ∧ c ≠ 'm' ∧ c ≠ 'b' :=
    ⟨halign .center, halign .left, halign .right, halign .top, halign .middle, halign .bottom⟩
  have hsigns : c ≠ '@' ∧ c ≠ '!' ∧ c ≠ '>' ∧ c ≠ '<' :=
    ⟨hsign .between, hsign .instead, hsign .before, hsign .after⟩
  unfold letter
  split <;> simp_all

/-- **What a text expands to is computed.** -/
theorem Expands.marks_eq {cs : List Char} {ms : List ColumnMark} (h : Expands cs ms) :
    marks cs = ms := by
  induction h with
  | nil => rw [marks.eq_def]
  | rule h ih =>
    rw [marks_cons, ih]
    rfl
  | column align hline h ih => simp [marks_cons, letter_letter, hline, ih]
  | paragraph align hparagraph hwidth h ih =>
    obtain ⟨hcontent, hrest⟩ := hwidth.braced_eq
    simp [marks_cons, letter_letter, hparagraph, hcontent, hrest, ih]
  | decoration sign hinside h ih =>
    obtain ⟨-, hrest⟩ := hinside.braced_eq
    simp [marks_cons, letter_sign, hrest, ih]
  | repeated hcount hbody hcopy h ihcopy ih =>
    obtain ⟨hcontent, hrest⟩ := hcount.braced_eq
    obtain ⟨hcontent', hrest'⟩ := hbody.braced_eq
    have hstar : letter '*' = .copies := rfl
    simp [marks_cons, hstar, hcontent, hrest, hcontent', hrest', copies_eq_copyCount, ihcopy, ih]
  | ignored hrule halign hsign hstar h ih =>
    simp [marks_cons, letter_eq_other hrule halign hsign hstar, ih]

/-- A character in front of a text can be expanded with it, when all texts that are no longer
than the text can. -/
theorem exists_expands_cons (c : Char) {cs : List Char}
    (ih : ∀ t : List Char, t.length ≤ cs.length → ∃ ms, Expands t ms) :
    ∃ ms, Expands (c :: cs) ms := by
  by_cases hrule : c = '|'
  · subst hrule
    obtain ⟨ms, hms⟩ := ih cs (Nat.le_refl _)
    exact ⟨_, .rule hms⟩
  by_cases halign : ∃ align : Align, c = align.letter
  · obtain ⟨align, rfl⟩ := halign
    cases hparagraph : align.isParagraph with
    | false =>
      obtain ⟨ms, hms⟩ := ih cs (Nat.le_refl _)
      exact ⟨_, .column align hparagraph hms⟩
    | true =>
      obtain ⟨width, rest, hwidth⟩ := exists_takesGroup cs
      obtain ⟨ms, hms⟩ := ih rest hwidth.length_rest_le
      exact ⟨_, .paragraph align hparagraph hwidth hms⟩
  by_cases hsign : ∃ sign : Decoration, c = sign.sign
  · obtain ⟨sign, rfl⟩ := hsign
    obtain ⟨inside, rest, hinside⟩ := exists_takesGroup cs
    obtain ⟨ms, hms⟩ := ih rest hinside.length_rest_le
    exact ⟨_, .decoration sign hinside hms⟩
  by_cases hstar : c = '*'
  · subst hstar
    obtain ⟨count, rest, hcount⟩ := exists_takesGroup cs
    obtain ⟨body, rest', hbody⟩ := exists_takesGroup rest
    obtain ⟨copy, hcopy⟩ := ih body (hbody.length_le.trans hcount.length_rest_le)
    obtain ⟨ms, hms⟩ := ih rest' (hbody.length_rest_le.trans hcount.length_rest_le)
    exact ⟨_, .repeated hcount hbody hcopy hms⟩
  · obtain ⟨ms, hms⟩ := ih cs (Nat.le_refl _)
    exact ⟨ms, .ignored hrule (fun align h => halign ⟨align, h⟩)
      (fun sign h => hsign ⟨sign, h⟩) hstar hms⟩

/-- Every text expands. -/
theorem exists_expands (cs : List Char) : ∃ ms, Expands cs ms := by
  induction hn : cs.length using Nat.strong_induction_on generalizing cs with
  | _ n ih =>
    cases cs with
    | nil => exact ⟨[], .nil⟩
    | cons c cs =>
      rw [List.length_cons] at hn
      exact exists_expands_cons c fun t ht => ih t.length (by omega) t rfl

/-- **Every text expands to exactly one list of marks, and it is computed.** -/
theorem expands_iff {cs : List Char} {ms : List ColumnMark} : Expands cs ms ↔ marks cs = ms := by
  constructor
  · exact Expands.marks_eq
  · rintro rfl
    obtain ⟨ms, hms⟩ := exists_expands cs
    rwa [hms.marks_eq]

/-! ### Texts as bytes -/

/-- The text of a preamble in bytes.  The blanks are taken out before the bytes are read. -/
def solidText (raw : List UInt8) : List Char :=
  Utf8.decode (raw.filter fun b => solid (Char.ofNat b.toNat))

/-- The columns of a preamble in bytes are those of the marks that its text expands to. -/
theorem Expands.columnsOfBytes_eq {raw : List UInt8} {ms : List ColumnMark}
    (h : Expands (solidText raw) ms) : columnsOfBytes raw = layout ms := by
  rw [columnsOfBytes, List.filter_congr fun b _ => isPreambleBlank_eq _, ← h.marks_eq, solidText]

end Preamble

end TexTree

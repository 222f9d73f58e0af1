/-
TexTree/Proofs/Json/NumberLiteral.lean

Number literals as a grammar, and that exactly they are read.

    number = [ minus ] whole [ fraction ] [ exponent ]

A literal without fraction and exponent is an integer and has a value; any other
is kept as it stands.  `number?_eq_some_iff` is the main result, and
`spellsNumber_write` says that the decimal notation of an integer is a literal
of that integer.
-/
import TexTree.Json.Literal
import TexTree.Proofs.Text.Cut

namespace TexTree.Json

/-! ### The grammar -/

/-- The whole part of a number: a zero, or digits that do not start with one. -/
inductive Whole : List Char → Prop
  | zero : Whole ['0']
  | digits {c ds} : c ≠ '0' → isDigits (c :: ds) → Whole (c :: ds)

/-- A fraction, or nothing. -/
inductive Fraction : List Char → Prop
  | none : Fraction []
  | digits {ds} : isDigits ds → Fraction ('.' :: ds)

/-- An exponent, or nothing. -/
inductive Exponent : List Char → Prop
  | none : Exponent []
  | unsigned {e ds} : e = 'e' ∨ e = 'E' → isDigits ds → Exponent (e :: ds)
  | signed {e s ds} : e = 'e' ∨ e = 'E' → s = '+' ∨ s = '-' → isDigits ds →
      Exponent (e :: s :: ds)

/-- The sign of a number: a minus, or nothing. -/
def sign (negative : Bool) : List Char := if negative then ['-'] else []

/-- The integer with the given sign and digits. -/
def integer (negative : Bool) (digits : List Char) : Int :=
  if negative then -(Nat.ofDigitChars 10 digits 0 : Int) else Nat.ofDigitChars 10 digits 0

/-- The number `a` is spelled by the characters `cs`. -/
inductive SpellsNumber : Atom → List Char → Prop
  | int (negative) {whole} : Whole whole →
      SpellsNumber (.int (integer negative whole)) (sign negative ++ whole)
  | decimal (negative) {whole tail frac exp} : Whole whole → Fraction frac → Exponent exp →
      tail = frac ++ exp → tail ≠ [] →
      SpellsNumber (.decimal (String.ofList (sign negative ++ (whole ++ tail))))
        (sign negative ++ (whole ++ tail))

/-! ### Its parts are recognised -/

theorem isDigits_iff {cs : List Char} : isDigits cs ↔ cs ≠ [] ∧ ∀ c ∈ cs, c.isDigit := by
  simp [isDigits]

theorem isWhole_iff {cs : List Char} : isWhole cs ↔ Whole cs := by
  constructor
  · intro h
    cases cs with
    | nil => simp [isWhole] at h
    | cons c ds =>
      by_cases hc : c = '0'
      · rw [isWhole, if_pos hc, List.isEmpty_iff] at h
        rw [hc, h]
        exact .zero
      · rw [isWhole, if_neg hc] at h
        exact .digits hc (by simpa [isDigits] using h)
  · intro h
    cases h with
    | zero => rfl
    | digits hc hd => rw [isWhole, if_neg hc]; simpa [isDigits] using hd

theorem isExponent_iff {cs : List Char} : isExponent cs ↔ Exponent cs := by
  constructor
  · intro h
    cases cs with
    | nil => exact .none
    | cons e rest =>
      simp only [isExponent, Bool.and_eq_true, Bool.or_eq_true, beq_iff_eq] at h
      obtain ⟨he, hd⟩ := h
      split at hd
      · exact .signed he (.inl rfl) hd
      · exact .signed he (.inr rfl) hd
      · exact .unsigned he hd
  · intro h
    cases h with
    | none => rfl
    | @unsigned e ds he hd =>
      simp only [isExponent, Bool.and_eq_true, Bool.or_eq_true, beq_iff_eq]
      refine ⟨he, ?_⟩
      split
      · simp [isDigits] at hd
      · simp [isDigits] at hd
      · exact hd
    | signed he hs hd =>
      simp only [isExponent, Bool.and_eq_true, Bool.or_eq_true, beq_iff_eq]
      refine ⟨he, ?_⟩
      rcases hs with rfl | rfl
      · exact hd
      · exact hd

/-- No digit can be taken for the start of an exponent. -/
theorem Exponent.stops {exp : List Char} (h : Exponent exp) : Stops Char.isDigit exp := by
  cases h with
  | none => exact stops_nil
  | unsigned he => rcases he with rfl | rfl <;> simp
  | signed he => rcases he with rfl | rfl <;> simp

/-- No digit can be taken for the start of a fraction or of what follows it. -/
theorem Fraction.stops_append {frac exp : List Char} (hf : Fraction frac) (he : Exponent exp) :
    Stops Char.isDigit (frac ++ exp) := by
  cases hf with
  | none => exact he.stops
  | digits => simp

theorem afterFraction?_of_exponent {exp : List Char} (h : Exponent exp) :
    afterFraction? exp = some exp := by
  cases h with
  | none => rfl
  | unsigned he => rcases he with rfl | rfl <;> rfl
  | signed he => rcases he with rfl | rfl <;> rfl

/-- What stands behind the whole part is read as a fraction and an exponent. -/
theorem any_afterFraction?_iff {rest : List Char} :
    (afterFraction? rest).any isExponent ↔
      ∃ frac exp, Fraction frac ∧ Exponent exp ∧ rest = frac ++ exp := by
  constructor
  · intro h
    unfold afterFraction? at h
    split at h
    · next ds =>
      split at h
      · cases h
      · next hd =>
        refine ⟨'.' :: ds.takeWhile Char.isDigit, ds.dropWhile Char.isDigit, .digits ?_,
          isExponent_iff.mp h, ?_⟩
        · exact isDigits_iff.mpr ⟨by simpa using hd, fun c hc => List.mem_takeWhile_imp hc⟩
        · rw [List.cons_append, List.takeWhile_append_dropWhile]
    · exact ⟨[], rest, .none, isExponent_iff.mp h, rfl⟩
  · rintro ⟨frac, exp, hf, he, rfl⟩
    cases hf with
    | none =>
      rw [List.nil_append, afterFraction?_of_exponent he]
      exact isExponent_iff.mpr he
    | @digits ds hd =>
      obtain ⟨hne, hall⟩ := isDigits_iff.mp hd
      rw [List.cons_append, afterFraction?, takeWhile_append_stops hall he.stops,
        dropWhile_append_stops hall he.stops, if_neg (by simpa using hne)]
      exact isExponent_iff.mpr he

/-! ### Numbers are recognised -/

theorem Whole.isDigits {whole : List Char} (h : Whole whole) : isDigits whole := by
  cases h with
  | zero => rfl
  | digits _ hd => exact hd

/-- A number without its sign: what is read is a whole part, and behind it nothing or
a fraction and an exponent. -/
theorem unsigned?_eq_some_iff {negative : Bool} {cs body : List Char} {a : Atom} :
    unsigned? negative cs body = some a ↔
      (Whole body ∧ a = .int (integer negative body)) ∨
      ∃ whole frac exp, Whole whole ∧ Fraction frac ∧ Exponent exp ∧ frac ++ exp ≠ [] ∧
        body = whole ++ (frac ++ exp) ∧ a = .decimal (String.ofList cs) := by
  unfold unsigned?
  constructor
  · intro h
    dsimp only at h
    split at h
    · cases h
    next hw =>
    have hw : Whole (body.takeWhile Char.isDigit) := isWhole_iff.mp (by simpa using hw)
    split at h
    · next hr =>
      have hb : body.takeWhile Char.isDigit = body := by
        have := List.takeWhile_append_dropWhile (p := Char.isDigit) (l := body)
        rwa [List.isEmpty_iff.mp hr, List.append_nil] at this
      rw [hb] at hw h
      exact .inl ⟨hw, (Option.some.inj h).symm⟩
    next hr =>
    split at h
    · next he =>
      obtain ⟨frac, exp, hf, he, hrest⟩ := any_afterFraction?_iff.mp he
      refine .inr ⟨_, frac, exp, hw, hf, he, ?_, ?_, (Option.some.inj h).symm⟩
      · rw [← hrest]
        simpa using hr
      · rw [← hrest, List.takeWhile_append_dropWhile]
    · cases h
  · rintro (⟨hw, rfl⟩ | ⟨whole, frac, exp, hw, hf, he, hne, rfl, rfl⟩)
    · have hd := (isDigits_iff.mp hw.isDigits).2
      rw [List.takeWhile_eq_self_iff.mpr hd, List.dropWhile_eq_nil_iff.mpr hd]
      simp [isWhole_iff.mpr hw, integer]
    · have hd := (isDigits_iff.mp hw.isDigits).2
      have hs := hf.stops_append he
      rw [takeWhile_append_stops hd hs, dropWhile_append_stops hd hs]
      have ha := any_afterFraction?_iff.mpr ⟨frac, exp, hf, he, rfl⟩
      simp only [isWhole_iff.mpr hw, ha, List.isEmpty_iff, hne]
      simp

theorem Whole.head_ne_minus {whole rest cs : List Char} (h : Whole whole) :
    whole ++ rest ≠ '-' :: cs := by
  intro he
  cases h with
  | zero => cases he
  | digits _ hd =>
    obtain ⟨rfl, -⟩ := List.cons.inj he
    simp [Json.isDigits] at hd

/-- **The reader of numbers is the grammar.** -/
theorem number?_eq_some_iff {cs : List Char} {a : Atom} :
    number? cs = some a ↔ SpellsNumber a cs := by
  constructor
  · intro h
    unfold number? at h
    split at h
    · next body =>
      rcases unsigned?_eq_some_iff.mp h with ⟨hw, rfl⟩ | ⟨_, frac, exp, hw, hf, he, hne, rfl, rfl⟩
      · exact .int true hw
      · exact .decimal true hw hf he rfl hne
    · rcases unsigned?_eq_some_iff.mp h with ⟨hw, rfl⟩ | ⟨_, frac, exp, hw, hf, he, hne, rfl, rfl⟩
      · exact .int false hw
      · exact .decimal false hw hf he rfl hne
  · intro h
    cases h with
    | @int negative whole hw =>
      cases negative with
      | true => exact unsigned?_eq_some_iff.mpr (.inl ⟨hw, rfl⟩)
      | false =>
        show number? whole = _
        unfold number?
        split
        · next body => exact absurd (List.append_nil _) (hw.head_ne_minus)
        · exact unsigned?_eq_some_iff.mpr (.inl ⟨hw, rfl⟩)
    | @decimal negative whole _ frac exp hw hf he ht hne =>
      subst ht
      cases negative with
      | true => exact unsigned?_eq_some_iff.mpr (.inr ⟨whole, frac, exp, hw, hf, he, hne, rfl, rfl⟩)
      | false =>
        show number? (whole ++ (frac ++ exp)) = _
        unfold number?
        split
        · next body heq => exact absurd heq hw.head_ne_minus
        · exact unsigned?_eq_some_iff.mpr (.inr ⟨whole, frac, exp, hw, hf, he, hne, rfl, rfl⟩)

/-! ### Integers are written as literals -/

theorem isDigits_toDigits (n : Nat) : isDigits (Nat.toDigits 10 n) :=
  isDigits_iff.mpr ⟨Nat.toDigits_ne_nil,
    fun _ hc => Nat.isDigit_of_mem_toDigits (by decide) (by decide) hc⟩

/-- The decimal digits of a number start with a zero only when it is zero. -/
theorem whole_toDigits (n : Nat) : Whole (Nat.toDigits 10 n) := by
  induction n using Nat.strongRecOn with
  | ind n ih =>
    by_cases hn : n < 10
    · have single : ∀ m < 10, isWhole [Nat.digitChar m] := by decide
      rw [Nat.toDigits_of_lt_base hn]
      exact isWhole_iff.mp (single n hn)
    · have hd := isDigits_toDigits n
      rw [Nat.toDigits_of_base_le (by decide) (by omega)] at hd ⊢
      -- the leading digits are those of `n / 10`, which is not zero
      generalize hl : Nat.toDigits 10 (n / 10) = lead at hd ⊢
      have hw : Whole lead := hl ▸ ih (n / 10) (by omega)
      cases hw with
      | zero =>
        have hv := Nat.ofDigitChars_ten_toDigits (n := n / 10)
        rw [hl, show Nat.ofDigitChars 10 ['0'] 0 = 0 from rfl] at hv
        omega
      | digits hc _ => exact .digits hc hd

/-- The decimal notation of an integer is a literal of it. -/
theorem spellsNumber_write (n : Int) : SpellsNumber (.int n) (Numeral.write n) := by
  unfold Numeral.write
  split
  · next hn =>
    have h := SpellsNumber.int true (whole_toDigits n.natAbs)
    have hv : integer true (Nat.toDigits 10 n.natAbs) = n := by
      rw [integer, if_pos rfl, Nat.ofDigitChars_ten_toDigits]
      omega
    rwa [hv] at h
  · next hn =>
    have h := SpellsNumber.int false (whole_toDigits n.natAbs)
    have hv : integer false (Nat.toDigits 10 n.natAbs) = n := by
      rw [integer, if_neg (by decide), Nat.ofDigitChars_ten_toDigits]
      omega
    rwa [hv] at h

end TexTree.Json

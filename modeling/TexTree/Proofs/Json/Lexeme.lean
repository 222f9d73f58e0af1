/-
TexTree/Proofs/Json/Lexeme.lean

The text of a list of tokens, and that exactly it is scanned.

    Lexeme t l         the characters l are one way to write the token t
    Lexes ts cs        cs is a text of the tokens ts: their lexemes in order, with
                       blanks anywhere between them

A word or a number ends where its characters end, so a scanner can take two of
them for one.  `Apart ts` says that no two atoms are neighbours in `ts`; of such
tokens, a text has one reading:

    scan? cs = some ts   ↔   Lexes ts cs          (`scan?_eq_some_iff`)
-/
import TexTree.Json.Token
import TexTree.Proofs.Json.NumberLiteral
import TexTree.Proofs.Json.StringLiteral

namespace TexTree.Token

/-! ### The texts of a token, and of many -/

/-- The token is an atom. -/
def isAtom : Token → Bool
  | .atom _ => true
  | _ => false

/-- The characters are one way to write the token. -/
inductive Lexeme : Token → List Char → Prop
  | mark {t} : t.isAtom = false → Lexeme t t.spell
  | word {a} : a = .null ∨ (∃ b, a = .bool b) → Lexeme (.atom a) (Json.literal a)
  | number {a l} : Json.SpellsNumber a l → Lexeme (.atom a) l
  | text {ps l} : StringLiteral.Spells ps l →
      Lexeme (.atom (.text (String.ofList (StringLiteral.join ps)))) ('"' :: (l ++ ['"']))

/-- The text is made of lexemes of the tokens, with blanks before, between and
behind them. -/
inductive Lexes : List Token → List Char → Prop
  | nil {s} : (∀ c ∈ s, isSpace c) → Lexes [] s
  | cons {t ts s l cs} : (∀ c ∈ s, isSpace c) → Lexeme t l → Lexes ts cs →
      Lexes (t :: ts) (s ++ (l ++ cs))

/-- No two atoms are neighbours. -/
def Apart : List Token → Prop
  | [] => True
  | t :: ts => (t.isAtom → Stops isAtom ts) ∧ Apart ts

/-! ### Characters -/

/-- A character that can stand in a word or a number. -/
def isLiteralChar (c : Char) : Bool := Json.isNumberChar c || c.isAlpha

theorem not_isLiteralChar_of_isSpace {c : Char} (h : isSpace c) : isLiteralChar c = false := by
  simp only [isSpace, Bool.or_eq_true, beq_iff_eq] at h
  rcases h with ((rfl | rfl) | rfl) | rfl <;> rfl

theorem stops_number_of_literal {cs : List Char} (h : Stops isLiteralChar cs) :
    Stops Json.isNumberChar cs := by
  intro c hc
  have := h c hc
  simp only [isLiteralChar, Bool.or_eq_false_iff] at this
  exact this.1

theorem stops_alpha_of_literal {cs : List Char} (h : Stops isLiteralChar cs) :
    Stops Char.isAlpha cs := by
  intro c hc
  have := h c hc
  simp only [isLiteralChar, Bool.or_eq_false_iff] at this
  exact this.2

theorem not_isSpace_of_isLiteralChar {c : Char} (h : isLiteralChar c) : isSpace c = false := by
  rw [Bool.eq_false_iff]
  intro hs
  rw [not_isLiteralChar_of_isSpace hs] at h
  cases h

/-- A character is a punctuation mark iff it is all there is to write of one. -/
theorem mark?_eq_some_iff {c : Char} {t : Token} :
    mark? c = some t ↔ t.isAtom = false ∧ t.spell = [c] := by
  constructor
  · intro h
    unfold mark? at h
    split at h <;> cases h <;> exact ⟨rfl, rfl⟩
  · rintro ⟨ha, hc⟩
    cases t with
    | atom => cases ha
    | _ => cases hc; rfl

/-- A punctuation mark is one character, and none of a word or a number. -/
theorem spell_of_not_isAtom {t : Token} (h : t.isAtom = false) :
    ∃ c, t.spell = [c] ∧ isLiteralChar c = false ∧ isSpace c = false := by
  cases t with
  | atom => cases h
  | _ => exact ⟨_, rfl, rfl, rfl⟩

theorem mark?_of_isLiteralChar {c : Char} (h : isLiteralChar c) : mark? c = none := by
  rw [Option.eq_none_iff_forall_ne_some]
  intro t ht
  obtain ⟨ha, hs⟩ := mark?_eq_some_iff.mp ht
  obtain ⟨d, hd, hl, -⟩ := spell_of_not_isAtom ha
  obtain rfl : c = d := by simpa [hs] using hd
  rw [hl] at h
  cases h

theorem not_isAlpha_of_isDigit {c : Char} (h : c.isDigit) : c.isAlpha = false := by
  rw [Bool.eq_false_iff]
  intro ha
  change (decide (48 ≤ c.val) && decide (c.val ≤ 57)) = true at h
  change (decide (65 ≤ c.val ∧ c.val ≤ 90) ||
    decide (97 ≤ c.val) && decide (c.val ≤ 122)) = true at ha
  simp only [Bool.or_eq_true, Bool.and_eq_true, decide_eq_true_eq, UInt32.le_iff_toNat_le] at h ha
  change 48 ≤ c.toNat ∧ c.toNat ≤ 57 at h
  change 65 ≤ c.toNat ∧ c.toNat ≤ 90 ∨ 97 ≤ c.toNat ∧ c.toNat ≤ 122 at ha
  omega

/-! ### The characters of a number -/

theorem forall_isNumberChar_of_isDigits {ds : List Char} (h : Json.isDigits ds) :
    ∀ c ∈ ds, Json.isNumberChar c := by
  intro c hc
  simp [Json.isNumberChar, (Json.isDigits_iff.mp h).2 c hc]

theorem forall_isNumberChar_sign (negative : Bool) :
    ∀ c ∈ Json.sign negative, Json.isNumberChar c := by
  cases negative <;> simp [Json.sign, Json.isNumberChar]

theorem forall_isNumberChar_fraction {frac : List Char} (h : Json.Fraction frac) :
    ∀ c ∈ frac, Json.isNumberChar c := by
  cases h with
  | none => simp
  | digits hd => exact List.forall_mem_cons.mpr ⟨rfl, forall_isNumberChar_of_isDigits hd⟩

theorem forall_isNumberChar_exponent {exp : List Char} (h : Json.Exponent exp) :
    ∀ c ∈ exp, Json.isNumberChar c := by
  cases h with
  | none => simp
  | unsigned he hd =>
    refine List.forall_mem_cons.mpr ⟨?_, forall_isNumberChar_of_isDigits hd⟩
    rcases he with rfl | rfl <;> rfl
  | signed he hs hd =>
    refine List.forall_mem_cons.mpr ⟨?_,
      List.forall_mem_cons.mpr ⟨?_, forall_isNumberChar_of_isDigits hd⟩⟩
    · rcases he with rfl | rfl <;> rfl
    · rcases hs with rfl | rfl <;> rfl

/-- A number is made of characters of numbers. -/
theorem forall_isNumberChar {a : Atom} {l : List Char} (h : Json.SpellsNumber a l) :
    ∀ c ∈ l, Json.isNumberChar c := by
  cases h with
  | int negative hw =>
    rw [List.forall_mem_append]
    exact ⟨forall_isNumberChar_sign negative, forall_isNumberChar_of_isDigits hw.isDigits⟩
  | decimal negative hw hf he ht =>
    subst ht
    rw [List.forall_mem_append, List.forall_mem_append, List.forall_mem_append]
    exact ⟨forall_isNumberChar_sign negative, forall_isNumberChar_of_isDigits hw.isDigits,
      forall_isNumberChar_fraction hf, forall_isNumberChar_exponent he⟩

theorem sign_whole_head (negative : Bool) {whole : List Char} (h : Json.Whole whole)
    (tail : List Char) :
    ∃ c l, Json.sign negative ++ (whole ++ tail) = c :: l ∧ c.isAlpha = false := by
  cases negative with
  | true => exact ⟨'-', _, rfl, rfl⟩
  | false =>
    cases h with
    | zero => exact ⟨'0', _, rfl, rfl⟩
    | @digits c ds _ hd =>
      exact ⟨c, _, rfl, not_isAlpha_of_isDigit ((Json.isDigits_iff.mp hd).2 c (by simp))⟩

/-- A number starts with a sign or a digit. -/
theorem number_head {a : Atom} {l : List Char} (h : Json.SpellsNumber a l) :
    ∃ c l', l = c :: l' ∧ Json.isNumberChar c ∧ c.isAlpha = false := by
  have hall := forall_isNumberChar h
  have hhead : ∃ c l', l = c :: l' ∧ c.isAlpha = false := by
    cases h with
    | int negative hw => simpa using sign_whole_head negative hw []
    | decimal negative hw => exact sign_whole_head negative hw _
  obtain ⟨c, l', rfl, hc⟩ := hhead
  exact ⟨c, l', rfl, hall c (by simp), hc⟩

/-! ### Words -/

theorem word?_eq_some_iff {a : Atom} {l : List Char} :
    Json.word? l = some a ↔ (a = .null ∨ ∃ b, a = .bool b) ∧ l = Json.literal a := by
  constructor
  · intro h
    unfold Json.word? at h
    split at h
    · next hl => cases h; exact ⟨.inl rfl, hl⟩
    split at h
    · next hl => cases h; exact ⟨.inr ⟨true, rfl⟩, hl⟩
    split at h
    · next hl => cases h; exact ⟨.inr ⟨false, rfl⟩, hl⟩
    · cases h
  · rintro ⟨rfl | ⟨b, rfl⟩, rfl⟩
    · rfl
    · cases b <;> rfl

/-- A word starts with a letter and has no other characters. -/
theorem word_head {a : Atom} (h : a = .null ∨ ∃ b, a = .bool b) :
    (∀ c ∈ Json.literal a, c.isAlpha) ∧
      ∃ c l, Json.literal a = c :: l ∧ Json.isNumberChar c = false := by
  rcases h with rfl | ⟨b, rfl⟩
  · exact ⟨List.all_eq_true.mp rfl, 'n', _, rfl, rfl⟩
  · cases b with
    | true => exact ⟨List.all_eq_true.mp rfl, 't', _, rfl, rfl⟩
    | false => exact ⟨List.all_eq_true.mp rfl, 'f', _, rfl, rfl⟩

/-! ### One token -/

theorem cut?_eq_some_iff {p : Char → Bool} {spelled? : List Char → Option Atom} {cs rest : List Char}
    {t : Token} :
    cut? p spelled? cs = some (t, rest) ↔
      ∃ a, spelled? (cs.takeWhile p) = some a ∧ t = .atom a ∧ rest = cs.dropWhile p := by
  rw [cut?, Option.map_eq_some_iff]
  constructor
  · rintro ⟨a, ha, he⟩
    obtain ⟨rfl, rfl⟩ := Prod.mk.inj he
    exact ⟨a, ha, rfl, rfl⟩
  · rintro ⟨a, ha, rfl, rfl⟩
    exact ⟨a, ha, rfl⟩

/-- What is cut off is a lexeme, when what is spelled is. -/
theorem lexeme_of_cut? {p : Char → Bool} {spelled? : List Char → Option Atom} {cs rest : List Char}
    {t : Token} (hs : ∀ l a, spelled? l = some a → Lexeme (.atom a) l)
    (h : cut? p spelled? cs = some (t, rest)) : ∃ l, Lexeme t l ∧ cs = l ++ rest := by
  obtain ⟨a, ha, rfl, rfl⟩ := cut?_eq_some_iff.mp h
  exact ⟨cs.takeWhile p, hs _ a ha, List.takeWhile_append_dropWhile.symm⟩

/-- A lexeme is cut off where the characters of its class end. -/
theorem cut?_append {p : Char → Bool} {spelled? : List Char → Option Atom} {l rest : List Char}
    {a : Atom} (hl : ∀ c ∈ l, p c) (hr : Stops p rest) (hs : spelled? l = some a) :
    cut? p spelled? (l ++ rest) = some (.atom a, rest) := by
  rw [cut?_eq_some_iff]
  refine ⟨a, ?_, rfl, ?_⟩
  · rw [takeWhile_append_stops hl hr, hs]
  · rw [dropWhile_append_stops hl hr]

/-- What is taken off the front of a text is a lexeme. -/
theorem lexeme_of_next? {c : Char} {cs rest : List Char} {t : Token}
    (h : next? c cs = some (t, rest)) : ∃ l, Lexeme t l ∧ c :: cs = l ++ rest := by
  unfold next? at h
  split at h
  · next u hu =>
    obtain ⟨rfl, rfl⟩ := Prod.mk.inj (Option.some.inj h)
    obtain ⟨ha, hs⟩ := mark?_eq_some_iff.mp hu
    exact ⟨_, .mark ha, by rw [hs]; rfl⟩
  split at h
  · next hc =>
    obtain ⟨⟨s, rest'⟩, hs, he⟩ := Option.map_eq_some_iff.mp h
    obtain ⟨rfl, rfl⟩ := Prod.mk.inj he
    obtain ⟨ps, body, hp, rfl, rfl⟩ := StringLiteral.read?_eq_some_iff.mp hs
    exact ⟨_, .text hp, by simp [hc]⟩
  split at h
  · exact lexeme_of_cut? (fun l a ha => .number (Json.number?_eq_some_iff.mp ha)) h
  split at h
  · refine lexeme_of_cut? (fun l a ha => ?_) h
    obtain ⟨hw, rfl⟩ := word?_eq_some_iff.mp ha
    exact .word hw
  · cases h

/-- A lexeme is taken off the front of a text, provided that behind an atom no
character of a word or a number follows. -/
theorem next?_of_lexeme {t : Token} {l rest : List Char} (h : Lexeme t l)
    (hr : t.isAtom → Stops isLiteralChar rest) :
    ∃ c l', l = c :: l' ∧ isSpace c = false ∧ next? c (l' ++ rest) = some (t, rest) := by
  cases h with
  | mark ha =>
    obtain ⟨c, hc, -, hs⟩ := spell_of_not_isAtom ha
    refine ⟨c, [], hc, hs, ?_⟩
    rw [next?, mark?_eq_some_iff.mpr ⟨ha, hc⟩]
    rfl
  | @word a hw =>
    obtain ⟨hall, c, l', hl, hn⟩ := word_head hw
    have hc : c.isAlpha := hall c (by simp [hl])
    have hlit : isLiteralChar c := by simp [isLiteralChar, hc]
    refine ⟨c, l', hl, not_isSpace_of_isLiteralChar hlit, ?_⟩
    have hq : c ≠ '"' := by rintro rfl; cases hlit
    rw [next?, mark?_of_isLiteralChar hlit]
    show (if c = '"' then _ else _) = _
    rw [if_neg hq, if_neg (by simp [hn]), if_pos hc, ← List.cons_append, ← hl]
    exact cut?_append hall (stops_alpha_of_literal (hr rfl)) (word?_eq_some_iff.mpr ⟨hw, rfl⟩)
  | @number a l hn =>
    obtain ⟨c, l', rfl, hc, ha⟩ := number_head hn
    have hlit : isLiteralChar c := by simp [isLiteralChar, hc]
    refine ⟨c, l', rfl, not_isSpace_of_isLiteralChar hlit, ?_⟩
    have hq : c ≠ '"' := by rintro rfl; cases hlit
    rw [next?, mark?_of_isLiteralChar hlit]
    show (if c = '"' then _ else _) = _
    rw [if_neg hq, if_pos (by simp [hc, ha]), ← List.cons_append]
    exact cut?_append (forall_isNumberChar hn) (stops_number_of_literal (hr rfl))
      (Json.number?_eq_some_iff.mpr hn)
  | @text ps l hp =>
    have hread : StringLiteral.read? (l ++ '"' :: rest) =
        some (String.ofList (StringLiteral.join ps), rest) :=
      StringLiteral.read?_eq_some_iff.mpr ⟨ps, l, hp, rfl, rfl⟩
    refine ⟨'"', l ++ ['"'], rfl, rfl, ?_⟩
    rw [List.append_assoc, List.singleton_append, next?, show mark? '"' = none from rfl]
    show (if '"' = '"' then Option.map _ _ else _) = _
    rw [if_pos rfl, hread]
    rfl

/-! ### Many tokens -/

/-- A text of tokens that start with no atom starts with no character of a word or
a number. -/
theorem Lexes.stops {ts : List Token} {cs : List Char} (h : Lexes ts cs) (hs : Stops isAtom ts) :
    Stops isLiteralChar cs := by
  -- blanks in front decide, and without them the first lexeme, which is a mark
  cases h with
  | @nil s hb =>
    intro c hc
    exact not_isLiteralChar_of_isSpace (hb c (List.mem_of_mem_head? hc))
  | @cons t ts s l cs hb hl _ =>
    cases s with
    | cons c s => exact stops_cons.mpr (not_isLiteralChar_of_isSpace (hb c (by simp)))
    | nil =>
      rw [stops_cons] at hs
      cases hl with
      | mark ha =>
        obtain ⟨c, hc, hlit, -⟩ := spell_of_not_isAtom ha
        rw [hc]
        exact stops_cons.mpr hlit
      | word => cases hs
      | number => cases hs
      | text => cases hs

/-- What is scanned is a text of the tokens found. -/
theorem lexes_of_scanFrom? {seen us : List Token} {cs : List Char}
    (h : scanFrom? seen cs = some us) : ∃ ts, us = seen.reverse ++ ts ∧ Lexes ts cs := by
  fun_induction scanFrom? seen cs with
  | case1 seen cs hcs =>
    refine ⟨[], by simpa using h.symm, .nil ?_⟩
    exact List.dropWhile_eq_nil_iff.mp hcs
  | case2 => cases h
  | case3 seen cs c rest hcs t rest' hnext ih =>
    obtain ⟨ts, rfl, hts⟩ := ih h
    obtain ⟨l, hl, he⟩ := lexeme_of_next? hnext
    refine ⟨t :: ts, by simp, ?_⟩
    rw [← List.takeWhile_append_dropWhile (p := isSpace) (l := cs), hcs, he]
    exact .cons (fun c hc => List.mem_takeWhile_imp hc) hl hts

/-- A text of tokens that stand apart is scanned. -/
theorem scanFrom?_of_lexes {ts : List Token} {cs : List Char} (h : Lexes ts cs) (ha : Apart ts)
    (seen : List Token) : scanFrom? seen cs = some (seen.reverse ++ ts) := by
  induction h generalizing seen with
  | @nil s hb =>
    have hd : s.dropWhile isSpace = [] := List.dropWhile_eq_nil_iff.mpr hb
    rw [scanFrom?]
    split
    · rw [List.append_nil]
    · next hcs => rw [hd] at hcs; cases hcs
  | @cons t ts s l cs hb hl hts ih =>
    obtain ⟨hstop, ha⟩ := ha
    obtain ⟨c, l', rfl, hc, hnext⟩ := next?_of_lexeme hl fun h => hts.stops (hstop h)
    have hd : (s ++ (c :: l' ++ cs)).dropWhile isSpace = c :: (l' ++ cs) :=
      dropWhile_append_stops hb (stops_cons.mpr hc)
    rw [scanFrom?]
    split
    · next hcs => rw [hd] at hcs; cases hcs
    · next d rest hcs =>
      rw [hd] at hcs
      obtain ⟨rfl, rfl⟩ := List.cons.inj hcs
      split
      · next hn => rw [hnext] at hn; cases hn
      · next u rest' hn =>
        rw [hnext] at hn
        obtain ⟨rfl, rfl⟩ := Prod.mk.inj (Option.some.inj hn)
        rw [ih ha, List.reverse_cons, List.append_assoc, List.singleton_append]

/-- **Scanning is reading lexemes.**  Tokens that stand apart are found in a text
exactly when the text is made of their lexemes. -/
theorem scan?_eq_some_iff {ts : List Token} {cs : List Char} (ha : Apart ts) :
    scan? cs = some ts ↔ Lexes ts cs := by
  constructor
  · intro h
    obtain ⟨us, rfl, hus⟩ := lexes_of_scanFrom? h
    exact hus
  · intro h
    exact scanFrom?_of_lexes h ha []

end TexTree.Token

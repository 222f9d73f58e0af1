/-
TexTree/Proofs/Json/StringLiteral.lean

String literals as a grammar, and the two ways between a text and its literal.

    Spells ps cs        the pieces ps stand between quotes as the characters cs

`read?_eq_some_iff` says that the reader follows the grammar and nothing else:
it stops at the first quote that no backslash takes away, and what it returns
is what the pieces before that quote join up to.

`spells_flatMap_escape` says that every text is read back from its literal.  Each
character is written as one piece, and a character that is given by number is
never half of a surrogate pair, so that neighbouring pieces of a written literal
are never joined.
-/
import TexTree.Json.Literal

namespace TexTree.StringLiteral

/-! ### The grammar -/

/-- The pieces `ps` stand between quotes as the characters `cs`. -/
inductive Spells : List Piece → List Char → Prop
  | nil : Spells [] []
  | char {c ps cs} : c ≠ '"' → c ≠ '\\' → 0x20 ≤ c.toNat → Spells ps cs →
      Spells (.char c :: ps) (c :: cs)
  | escaped {e x ps cs} : escaped? e = some x → Spells ps cs →
      Spells (.char x :: ps) ('\\' :: e :: cs)
  | unit {h₁ h₂ h₃ h₄ n ps cs} : Hex.read? [h₁, h₂, h₃, h₄] = some n → Spells ps cs →
      Spells (.unit n :: ps) ('\\' :: 'u' :: h₁ :: h₂ :: h₃ :: h₄ :: cs)

/-! ### The reader follows the grammar -/

theorem pieces?_quote (seen : List Piece) (rest : List Char) :
    pieces? seen ('"' :: rest) = some (seen.reverse, rest) := by
  unfold pieces?
  rw [if_pos rfl]

theorem pieces?_char {c : Char} (hq : c ≠ '"') (hb : c ≠ '\\') (hc : 0x20 ≤ c.toNat)
    (seen : List Piece) (rest : List Char) :
    pieces? seen (c :: rest) = pieces? (.char c :: seen) rest := by
  rw [pieces?.eq_def]
  show (if c = '"' then _ else if c = '\\' then _ else if c.toNat < 0x20 then _ else _) = _
  rw [if_neg hq, if_neg hb, if_neg (by omega)]

theorem pieces?_escaped {e x : Char} (he : escaped? e = some x) (seen : List Piece)
    (rest : List Char) :
    pieces? seen ('\\' :: e :: rest) = pieces? (.char x :: seen) rest := by
  -- no letter that is escaped is the one that announces a number
  have hu : e ≠ 'u' := by
    rintro rfl
    cases he
  rw [pieces?.eq_3 seen '\\' e rest fun _ _ _ _ _ h _ => hu h, if_neg (by decide), if_pos rfl, he]

theorem pieces?_unit {h₁ h₂ h₃ h₄ : Char} {n : Nat} (hn : Hex.read? [h₁, h₂, h₃, h₄] = some n)
    (seen : List Piece) (rest : List Char) :
    pieces? seen ('\\' :: 'u' :: h₁ :: h₂ :: h₃ :: h₄ :: rest) = pieces? (.unit n :: seen) rest := by
  rw [pieces?.eq_2, if_neg (by decide), if_pos rfl, hn]

/-- What the grammar spells is read, up to the closing quote. -/
theorem pieces?_of_spells {ps : List Piece} {cs : List Char} (h : Spells ps cs)
    (seen : List Piece) (rest : List Char) :
    pieces? seen (cs ++ '"' :: rest) = some (seen.reverse ++ ps, rest) := by
  induction h generalizing seen with
  | nil => simp [pieces?_quote]
  | char hq hb hc _ ih => simp [pieces?_char hq hb hc, ih]
  | escaped he _ ih => simp [pieces?_escaped he, ih]
  | unit hn _ ih => simp [pieces?_unit hn, ih]

/-- What is read is what the grammar spells. -/
theorem spells_of_pieces? {seen ps : List Piece} {cs rest : List Char}
    (h : pieces? seen cs = some (ps, rest)) :
    ∃ qs body, Spells qs body ∧ cs = body ++ '"' :: rest ∧ ps = seen.reverse ++ qs := by
  fun_induction pieces? seen cs with
  | case1 => cases h
  | case2 seen cs =>
    obtain ⟨rfl, rfl⟩ := Prod.mk.inj (Option.some.inj h)
    exact ⟨[], [], .nil, rfl, by simp⟩
  | case3 seen h₁ h₂ h₃ h₄ cs n hn _ ih =>
    obtain ⟨qs, body, hs, rfl, rfl⟩ := ih h
    exact ⟨.unit n :: qs, _, .unit hn hs, rfl, by simp⟩
  | case4 => cases h
  | case5 seen e cs _ x he _ ih =>
    obtain ⟨qs, body, hs, rfl, rfl⟩ := ih h
    exact ⟨.char x :: qs, _, .escaped he hs, rfl, by simp⟩
  | case6 => cases h
  | case7 => cases h
  | case8 => cases h
  | case9 seen c cs hq hb hc ih =>
    obtain ⟨qs, body, hs, rfl, rfl⟩ := ih h
    exact ⟨.char c :: qs, _, .char hq hb (by omega) hs, rfl, by simp⟩

/-- **The reader of a literal is the grammar**: it returns what the pieces before
the closing quote join up to, and the text behind that quote. -/
theorem read?_eq_some_iff {cs rest : List Char} {s : String} :
    read? cs = some (s, rest) ↔
      ∃ ps body, Spells ps body ∧ cs = body ++ '"' :: rest ∧ s = String.ofList (join ps) := by
  rw [read?, Option.map_eq_some_iff]
  constructor
  · rintro ⟨⟨ps, rest'⟩, hp, he⟩
    obtain ⟨hs, rfl⟩ := Prod.mk.inj he
    obtain ⟨qs, body, hq, rfl, hps⟩ := spells_of_pieces? hp
    rw [List.reverse_nil, List.nil_append] at hps
    rw [hps] at hs
    exact ⟨qs, body, hq, rfl, hs.symm⟩
  · rintro ⟨ps, body, hs, rfl, rfl⟩
    exact ⟨(ps, rest), by simpa using pieces?_of_spells hs [] rest, rfl⟩

/-! ### What is written is read back -/

/-- A unit that is no half of a surrogate pair is a character of its own. -/
theorem join_unit {n : Nat} (hh : isHigh n = false) (hl : isLow n = false) (ps : List Piece) :
    join (.unit n :: ps) = Char.ofNat n :: join ps := by
  have hs : single n = Char.ofNat n := by simp [single, hh, hl]
  cases ps with
  | nil => simp [join, hs]
  | cons p ps =>
    cases p with
    | char c => simp [join, hs]
    | unit m => simp [join, hs, hh]

/-- A character whose number has four digits and is no half of a surrogate pair is
one piece of its literal. -/
theorem spells_numbered {c : Char} (hc : c.toNat < 0xd800) {ps : List Piece} {cs : List Char}
    (h : Spells ps cs) : Spells (.unit c.toNat :: ps) (numbered c ++ cs) := by
  have hr : Hex.read? (Hex.write 4 c.toNat) = some c.toNat := Hex.read?_write (by
    show c.toNat < 65536
    omega)
  exact .unit hr h

/-- **One character is one piece.**  However it is escaped, a character stands in
its literal as a piece that joins up to it, whatever pieces follow. -/
theorem spells_escape (c : Char) :
    ∃ p : Piece, (∀ ps cs, Spells ps cs → Spells (p :: ps) (escape c ++ cs)) ∧
      ∀ ps, join (p :: ps) = c :: join ps := by
  have hchar : ∀ ps, join (.char c :: ps) = c :: join ps := fun ps => by rw [join]
  unfold escape
  split
  · next h =>
    refine ⟨.char c, fun ps cs hs => .escaped ?_ hs, hchar⟩
    rcases h with rfl | rfl <;> rfl
  split
  · next h => subst h; exact ⟨_, fun ps cs hs => .escaped rfl hs, hchar⟩
  split
  · next h => subst h; exact ⟨_, fun ps cs hs => .escaped rfl hs, hchar⟩
  split
  · next h => subst h; exact ⟨_, fun ps cs hs => .escaped rfl hs, hchar⟩
  split
  · next h =>
    refine ⟨.char c, fun ps cs hs => .escaped ?_ hs, hchar⟩
    rw [← Char.ofNat_toNat c, h]
    rfl
  split
  · next h =>
    refine ⟨.char c, fun ps cs hs => .escaped ?_ hs, hchar⟩
    rw [← Char.ofNat_toNat c, h]
    rfl
  split
  · -- by number: the six cases all lie below the surrogates
    next h =>
    have hc : c.toNat < 0xd800 := by
      rcases h with h | rfl | rfl | rfl | h | h
      · omega
      · decide
      · decide
      · decide
      · omega
      · omega
    refine ⟨.unit c.toNat, fun ps cs hs => spells_numbered hc hs, fun ps => ?_⟩
    rw [join_unit (by simp [isHigh]; omega) (by simp [isLow]; omega), Char.ofNat_toNat]
  · next h₁ _ _ _ _ _ h₂ =>
    refine ⟨.char c, fun ps cs hs => .char ?_ ?_ ?_ hs, hchar⟩
    · exact fun h => h₁ (.inl h)
    · exact fun h => h₁ (.inr h)
    · exact Nat.le_of_not_lt fun h => h₂ (.inl h)

/-- A text between quotes spells pieces that join up to the text. -/
theorem spells_flatMap_escape (s : List Char) :
    ∃ ps, Spells ps (s.flatMap escape) ∧ join ps = s := by
  induction s with
  | nil => exact ⟨[], .nil, by rw [join]⟩
  | cons c s ih =>
    obtain ⟨ps, hs, hj⟩ := ih
    obtain ⟨p, hp, hc⟩ := spells_escape c
    refine ⟨p :: ps, ?_, ?_⟩
    · rw [List.flatMap_cons]
      exact hp ps _ hs
    · rw [hc ps, hj]

end TexTree.StringLiteral

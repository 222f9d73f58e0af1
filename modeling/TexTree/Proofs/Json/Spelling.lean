/-
TexTree/Proofs/Json/Spelling.lean

JSON text, and that exactly it is parsed.

    Spells v cs        the text cs is one way to write the value v

A text spells a value when it is made of lexemes of the value's tokens, with
blanks anywhere between them.  A value has many texts, a text at most one value:

    parse? limit cs = some v   ↔   Spells v cs  and  v.depth ≤ limit

which is `parse?_eq_some_iff`.  One of the texts of a value is the one that is
printed (`spells_chars`), provided that its numbers are integers: a number that
is none keeps its literal, and that could be any string.
-/
import TexTree.Proofs.Json.Lexeme
import TexTree.Proofs.Json.Reader

namespace TexTree

/-! ### The tokens of a value stand apart -/

namespace Token

/-- A mark in front of tokens that stand apart leaves them so. -/
theorem apart_cons_mark {t : Token} {ts : List Token} (ht : t.isAtom = false) (h : Apart ts) :
    Apart (t :: ts) := by
  refine ⟨fun ha => ?_, h⟩
  rw [ht] at ha
  cases ha

/-- An atom in front of a mark and tokens that stand apart leaves them so. -/
theorem apart_cons_atom {a : Atom} {t : Token} {ts : List Token} (ht : t.isAtom = false)
    (h : Apart ts) : Apart (.atom a :: t :: ts) :=
  ⟨fun _ => stops_cons.mpr ht, apart_cons_mark ht h⟩

end Token

namespace Json

open Token (isAtom Apart apart_cons_mark apart_cons_atom Lexes Lexeme)

mutual

theorem apart_tokensThen : ∀ (v : Json) (ts : List Token), Stops isAtom ts → Apart ts →
    Apart (v.tokensThen ts)
  | .atom _, _, hs, h => ⟨fun _ => hs, h⟩
  | .array items, _, _, h =>
    apart_cons_mark rfl (apart_itemTokensThen items _ (stops_cons.mpr rfl) (apart_cons_mark rfl h))
  | .object members, _, _, h =>
    apart_cons_mark rfl
      (apart_memberTokensThen members _ (stops_cons.mpr rfl) (apart_cons_mark rfl h))

theorem apart_itemTokensThen : ∀ (items : List Json) (ts : List Token), Stops isAtom ts →
    Apart ts → Apart (itemTokensThen items ts)
  | [], _, _, h => h
  | [v], ts, hs, h => apart_tokensThen v ts hs h
  | v :: w :: items, ts, hs, h =>
    apart_tokensThen v _ (stops_cons.mpr rfl)
      (apart_cons_mark rfl (apart_itemTokensThen (w :: items) ts hs h))

theorem apart_memberTokensThen : ∀ (members : List (String × Json)) (ts : List Token),
    Stops isAtom ts → Apart ts → Apart (memberTokensThen members ts)
  | [], _, _, h => h
  | [(_, v)], ts, hs, h => apart_cons_atom rfl (apart_tokensThen v ts hs h)
  | (_, v) :: m :: members, ts, hs, h =>
    apart_cons_atom rfl (apart_tokensThen v _ (stops_cons.mpr rfl)
      (apart_cons_mark rfl (apart_memberTokensThen (m :: members) ts hs h)))

end

/-- **No two atoms of a value are neighbours**, so its tokens can be told apart in
every text. -/
theorem apart_tokens (v : Json) : Apart v.tokens := apart_tokensThen v [] stops_nil trivial

/-! ### Texts and values -/

/-- The text is one way to write the value: lexemes of its tokens, with blanks
anywhere between them. -/
def Spells (v : Json) (cs : List Char) : Prop := Lexes v.tokens cs

/-- **Parsing is the grammar.**  A text is parsed as a value exactly when it spells
the value and the value does not nest too deep. -/
theorem parse?_eq_some_iff {limit : Nat} {cs : List Char} {v : Json} :
    parse? limit cs = some v ↔ v.Spells cs ∧ v.depth ≤ limit := by
  rw [parse?, Option.bind_eq_some_iff]
  constructor
  · rintro ⟨ts, hscan, hread⟩
    obtain ⟨rfl, hd⟩ := ofTokens?_eq_some_iff.mp hread
    exact ⟨(Token.scan?_eq_some_iff v.apart_tokens).mp hscan, hd⟩
  · rintro ⟨hs, hd⟩
    exact ⟨v.tokens, (Token.scan?_eq_some_iff v.apart_tokens).mpr hs,
      ofTokens?_eq_some_iff.mpr ⟨rfl, hd⟩⟩

/-- A text that is not parsed spells no value, or one that nests too deep. -/
theorem parse?_eq_none_iff {limit : Nat} {cs : List Char} :
    parse? limit cs = none ↔ ¬∃ v : Json, v.Spells cs ∧ v.depth ≤ limit := by
  rw [Option.eq_none_iff_forall_ne_some, not_exists]
  constructor
  · intro h v hv
    exact h v (parse?_eq_some_iff.mpr hv)
  · intro h v hv
    exact h v (parse?_eq_some_iff.mp hv)

/-! ### What is printed spells the value -/

/-- Every number in the value is an integer. -/
def Integral (v : Json) : Prop := ∀ l, Token.atom (.decimal l) ∉ v.tokens

theorem integral_atom {a : Atom} (h : ∀ l, a ≠ .decimal l) : Integral (.atom a) := by
  intro l hl
  obtain rfl : a = .decimal l := by simpa [tokens, tokensThen, eq_comm] using hl
  exact h l rfl

theorem integral_null : Integral .null := integral_atom fun _ h => nomatch h

theorem integral_int (n : Int) : Integral (.int n) := integral_atom fun _ h => nomatch h

theorem integral_text (s : String) : Integral (.text s) := integral_atom fun _ h => nomatch h

theorem mem_itemTokensThen {items : List Json} {t : Token} (h : t ∈ itemTokensThen items []) :
    t = .comma ∨ ∃ v ∈ items, t ∈ v.tokens := by
  rcases List.eq_nil_or_concat' items with rfl | ⟨init, last, rfl⟩
  · cases h
  · rw [itemTokensThen_concat, itemsAndCommas] at h
    simp only [List.mem_append, List.mem_flatMap, List.mem_singleton] at h ⊢
    rcases h with ⟨v, hv, ht | ht⟩ | ht
    · exact .inr ⟨v, .inl hv, ht⟩
    · exact .inl ht
    · exact .inr ⟨last, .inr rfl, ht⟩

theorem mem_memberTokensThen {members : List (String × Json)} {t : Token}
    (h : t ∈ memberTokensThen members []) :
    t = .comma ∨ t = .colon ∨ (∃ s, t = .atom (.text s)) ∨ ∃ m ∈ members, t ∈ m.2.tokens := by
  rcases List.eq_nil_or_concat' members with rfl | ⟨init, last, rfl⟩
  · cases h
  · rw [memberTokensThen_concat, membersAndCommas] at h
    simp only [memberTokens, List.mem_append, List.mem_flatMap, List.mem_cons, List.not_mem_nil,
      or_false] at h ⊢
    rcases h with ⟨m, hm, (ht | ht | ht) | ht⟩ | ht | ht | ht
    · exact .inr (.inr (.inl ⟨_, ht⟩))
    · exact .inr (.inl ht)
    · exact .inr (.inr (.inr ⟨m, .inl hm, ht⟩))
    · exact .inl ht
    · exact .inr (.inr (.inl ⟨_, ht⟩))
    · exact .inr (.inl ht)
    · exact .inr (.inr (.inr ⟨last, .inr rfl, ht⟩))

theorem integral_array {items : List Json} (h : ∀ v ∈ items, v.Integral) :
    Integral (.array items) := by
  intro l hl
  rw [tokens_array] at hl
  have hl : Token.atom (.decimal l) ∈ itemTokensThen items [] := by simpa using hl
  rcases mem_itemTokensThen hl with ht | ⟨v, hv, ht⟩
  · cases ht
  · exact h v hv l ht

theorem integral_object {members : List (String × Json)} (h : ∀ m ∈ members, m.2.Integral) :
    Integral (.object members) := by
  intro l hl
  rw [tokens_object] at hl
  have hl : Token.atom (.decimal l) ∈ memberTokensThen members [] := by simpa using hl
  rcases mem_memberTokensThen hl with ht | ht | ⟨s, ht⟩ | ⟨m, hm, ht⟩
  · cases ht
  · cases ht
  · cases ht
  · exact h m hm l ht

theorem lexeme_spell {t : Token} (h : ∀ l, t ≠ .atom (.decimal l)) : Lexeme t t.spell := by
  cases t with
  | atom a =>
    cases a with
    | null => exact .word (.inl rfl)
    | bool b => exact .word (.inr ⟨b, rfl⟩)
    | int n => exact .number (spellsNumber_write n)
    | decimal l => exact absurd rfl (h l)
    | text s =>
      obtain ⟨ps, hp, hj⟩ := StringLiteral.spells_flatMap_escape s.toList
      have ht := Lexeme.text hp
      rwa [hj, String.ofList_toList] at ht
  | _ => exact .mark rfl

theorem lexes_flatMap_spell {ts : List Token} (h : ∀ t ∈ ts, Lexeme t t.spell) :
    Lexes ts (ts.flatMap Token.spell) := by
  induction ts with
  | nil => exact .nil (by simp)
  | cons t ts ih =>
    rw [List.flatMap_cons]
    exact .cons (s := []) (by simp) (h t (by simp)) (ih fun u hu => h u (by simp [hu]))

/-- The printed text of a value spells it. -/
theorem spells_chars {v : Json} (h : v.Integral) : v.Spells v.chars :=
  lexes_flatMap_spell fun _ ht => lexeme_spell fun l hl => h l (hl ▸ ht)

/-- A text spells one value at most. -/
theorem Spells.unique {v w : Json} {cs : List Char} (hv : v.Spells cs) (hw : w.Spells cs) :
    v = w := by
  have hpv : parse? (max v.depth w.depth) cs = some v :=
    parse?_eq_some_iff.mpr ⟨hv, Nat.le_max_left _ _⟩
  have hpw : parse? (max v.depth w.depth) cs = some w :=
    parse?_eq_some_iff.mpr ⟨hw, Nat.le_max_right _ _⟩
  rw [hpv] at hpw
  exact Option.some.inj hpw

/-- **What is printed is parsed**, unless it nests too deep. -/
theorem parse?_chars {v : Json} (h : v.Integral) (limit : Nat) :
    parse? limit v.print.toList = if v.depth ≤ limit then some v else none := by
  rw [print, String.toList_ofList]
  split
  · next hd => exact parse?_eq_some_iff.mpr ⟨spells_chars h, hd⟩
  · next hd =>
    rw [parse?_eq_none_iff]
    rintro ⟨w, hw, hdw⟩
    rw [hw.unique (spells_chars h)] at hdw
    exact hd hdw

end Json

end TexTree

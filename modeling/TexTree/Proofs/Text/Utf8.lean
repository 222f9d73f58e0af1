/-
TexTree/Proofs/Text/Utf8.lean

Texts as bytes.  The bytes of a text are decoded to the text, whatever characters
it has:

    decode (bytes s) = s

Each character is spelled by one to four bytes, and the first of them tells how
many follow, so the decoder never looks past the character it is about to read.

Design.  Whether a byte leads two, three or four bytes is a matter of its number
alone.  So the first byte of a longer spelling is refused by the shorter ones
(`pair?_of_le`, `triple?_of_le`), and `leading` arrives at the right one
(`exists_leading`).  A byte that continues a spelling starts none, so bytes may be cut
in front of any other byte before they are decoded (`spellings_append`).
-/
import TexTree.Proofs.Text.Cut
import TexTree.Text.Bytes

namespace TexTree.Utf8

/-- The bytes of a string. -/
def bytes (s : String) : List UInt8 := s.toByteArray.data.toList

theorem encode_append (s t : List Char) : encode (s ++ t) = encode s ++ encode t :=
  List.flatMap_append

theorem bytes_eq_encode (s : String) : bytes s = encode s.toList := by
  rw [bytes, ← String.utf8Encode_toList, List.utf8Encode, List.toList_data_toByteArray, encode]

/-! ### Single bytes -/

/-- The character with a number that is its own. -/
theorem scalar?_toNat {c : Char} {least n : Nat} (hn : n = c.toNat) (h : least ≤ n) :
    scalar? least n = some c := by
  subst hn
  rw [scalar?, if_pos ⟨h, c.valid⟩, Char.ofNat_toNat]

/-- The byte with a number keeps it. -/
theorem toNat_ofNat {n : Nat} (h : n < 256) : (UInt8.ofNat n).toNat = n := by
  rw [UInt8.toNat_ofNat', Nat.mod_eq_of_lt h]

/-- The character of a byte has its number. -/
theorem toNat_char (b : UInt8) : (Char.ofNat b.toNat).toNat = b.toNat := by
  have hvalid : b.toNat.isValidChar := .inl (Nat.lt_trans b.toNat_lt (by decide))
  rw [Char.ofNat, dif_pos hvalid]
  rfl

/-- The byte that stands `x` above `lo` is between `lo` and whatever is above it. -/
theorem ofNat_between {x : Nat} (lo hi : UInt8) (h : x + lo.toNat < hi.toNat) :
    (lo ≤ UInt8.ofNat (x + lo.toNat) && UInt8.ofNat (x + lo.toNat) < hi) = true := by
  have hn : (UInt8.ofNat (x + lo.toNat)).toNat = x + lo.toNat :=
    toNat_ofNat (Nat.lt_trans h hi.toNat_lt)
  rw [Bool.and_eq_true, decide_eq_true_eq, decide_eq_true_eq, UInt8.le_iff_toNat_le,
    UInt8.lt_iff_toNat_lt, hn]
  exact ⟨Nat.le_add_left _ _, h⟩

theorem isTail_ofNat {n : Nat} (h : n < 64) : isTail (UInt8.ofNat (n + 0x80)) = true :=
  ofNat_between 0x80 0xc0 (Nat.add_lt_add_right h 128)

/-- A continuing byte carries its six bits. -/
theorem tailBits_ofNat {n : Nat} (h : n < 64) : tailBits (UInt8.ofNat (n + 0x80)) = n := by
  rw [tailBits, toNat_ofNat (by omega)]
  omega

/-! ### The spellings of each length -/

/-- A byte that leads at least three bytes leads no pair. -/
theorem pair?_of_le {a : UInt8} (h : 0xe0 ≤ a) (b : UInt8) : pair? a b = none := by
  have ha : decide (a < 0xe0) = false := decide_eq_false (UInt8.not_lt.mpr h)
  rw [pair?, ha, Bool.and_false, Bool.false_and, if_neg Bool.false_ne_true]

/-- A byte that leads four bytes leads no triple. -/
theorem triple?_of_le {a : UInt8} (h : 0xf0 ≤ a) (b c : UInt8) : triple? a b c = none := by
  have ha : decide (a < 0xf0) = false := decide_eq_false (UInt8.not_lt.mpr h)
  rw [triple?, ha, Bool.and_false, Bool.false_and, Bool.false_and, if_neg Bool.false_ne_true]

theorem pair?_eq {c : Char} {x y : Nat} (hx : x < 32) (hy : y < 64) (hc : x * 64 + y = c.toNat)
    (h : 0x80 ≤ c.toNat) :
    pair? (UInt8.ofNat (x + 0xc0)) (UInt8.ofNat (y + 0x80)) = some c := by
  have hlow : (x + 0xc0) % 32 = x := by omega
  have hlead := ofNat_between 0xc0 0xe0 (Nat.add_lt_add_right hx 192)
  have hall : (0xc0 ≤ UInt8.ofNat (x + 0xc0) && UInt8.ofNat (x + 0xc0) < 0xe0 &&
      isTail (UInt8.ofNat (y + 0x80))) = true := by
    rw [isTail_ofNat hy, Bool.and_true]
    exact hlead
  rw [pair?, if_pos hall, toNat_ofNat (by omega), tailBits_ofNat hy, hlow, hc]
  exact scalar?_toNat rfl h

theorem triple?_eq {c : Char} {x y z : Nat} (hx : x < 16) (hy : y < 64) (hz : z < 64)
    (hc : x * 4096 + y * 64 + z = c.toNat) (h : 0x800 ≤ c.toNat) :
    triple? (UInt8.ofNat (x + 0xe0)) (UInt8.ofNat (y + 0x80)) (UInt8.ofNat (z + 0x80)) =
      some c := by
  have hlow : (x + 0xe0) % 16 = x := by omega
  have hlead := ofNat_between 0xe0 0xf0 (Nat.add_lt_add_right hx 224)
  have hall : (0xe0 ≤ UInt8.ofNat (x + 0xe0) && UInt8.ofNat (x + 0xe0) < 0xf0 &&
      isTail (UInt8.ofNat (y + 0x80)) && isTail (UInt8.ofNat (z + 0x80))) = true := by
    rw [isTail_ofNat hy, isTail_ofNat hz, Bool.and_true, Bool.and_true]
    exact hlead
  rw [triple?, if_pos hall, toNat_ofNat (by omega), tailBits_ofNat hy, tailBits_ofNat hz, hlow,
    hc]
  exact scalar?_toNat rfl h

theorem quadruple?_eq {c : Char} {w x y z : Nat} (hw : w < 8) (hx : x < 64) (hy : y < 64)
    (hz : z < 64) (hc : w * 262144 + x * 4096 + y * 64 + z = c.toNat) (h : 0x10000 ≤ c.toNat) :
    quadruple? (UInt8.ofNat (w + 0xf0)) (UInt8.ofNat (x + 0x80)) (UInt8.ofNat (y + 0x80))
      (UInt8.ofNat (z + 0x80)) = some c := by
  have hlow : (w + 0xf0) % 8 = w := by omega
  have hlead := ofNat_between 0xf0 0xf8 (Nat.add_lt_add_right hw 240)
  have hall : (0xf0 ≤ UInt8.ofNat (w + 0xf0) && UInt8.ofNat (w + 0xf0) < 0xf8 &&
      isTail (UInt8.ofNat (x + 0x80)) && isTail (UInt8.ofNat (y + 0x80)) &&
      isTail (UInt8.ofNat (z + 0x80))) = true := by
    rw [isTail_ofNat hx, isTail_ofNat hy, isTail_ofNat hz, Bool.and_true, Bool.and_true,
      Bool.and_true]
    exact hlead
  rw [quadruple?, if_pos hall, toNat_ofNat (by omega), tailBits_ofNat hx, tailBits_ofNat hy,
    tailBits_ofNat hz, hlow, hc]
  exact scalar?_toNat rfl h

/-! ### Texts -/

/-- The bytes above another one. -/
theorem le_ofNat {x : Nat} (lo : UInt8) (h : x + lo.toNat < 256) :
    lo ≤ UInt8.ofNat (x + lo.toNat) := by
  rw [UInt8.le_iff_toNat_le, toNat_ofNat h]
  exact Nat.le_add_left _ _

/-- A byte that leads a longer spelling is no character of its own. -/
theorem not_lt_of_le {a : UInt8} (h : 0xc0 ≤ a) : ¬a < 0x80 := by
  intro hlt
  exact absurd (UInt8.lt_of_le_of_lt h hlt) (by decide)

theorem isTail_of_lt {b : UInt8} (h : b < 0x80) : isTail b = false := by
  have hb : decide (0x80 ≤ b) = false := decide_eq_false (UInt8.not_le.mpr h)
  rw [isTail, hb, Bool.false_and]

theorem isTail_of_le {b : UInt8} (h : 0xc0 ≤ b) : isTail b = false := by
  have hb : decide (b < 0xc0) = false := decide_eq_false (UInt8.not_lt.mpr h)
  rw [isTail, hb, Bool.and_false]

theorem leading_pair {a b : UInt8} {c : Char} (ha : 0xc0 ≤ a) (h : pair? a b = some c)
    (rest : List UInt8) : leading a (b :: rest) = (c, 1) := by
  simp only [leading, if_neg (not_lt_of_le ha), h]

theorem leading_triple {a b b' : UInt8} {c : Char} (ha : 0xe0 ≤ a)
    (h : triple? a b b' = some c) (rest : List UInt8) :
    leading a (b :: b' :: rest) = (c, 2) := by
  have hlarge : ¬a < 0x80 := not_lt_of_le (UInt8.le_trans (by decide) ha)
  simp only [leading, if_neg hlarge, pair?_of_le ha, h]

theorem leading_quadruple {a b b' b'' : UInt8} {c : Char} (ha : 0xf0 ≤ a)
    (h : quadruple? a b b' b'' = some c) (rest : List UInt8) :
    leading a (b :: b' :: b'' :: rest) = (c, 3) := by
  have hlarge : ¬a < 0x80 := not_lt_of_le (UInt8.le_trans (by decide) ha)
  simp only [leading, if_neg hlarge, pair?_of_le (UInt8.le_trans (by decide) ha),
    triple?_of_le ha, h]

/-- **A character is read from the bytes that spell it**, and all of them are used up. -/
theorem exists_leading (c : Char) :
    ∃ a tail, String.utf8EncodeChar c = a :: tail ∧ isTail a = false ∧
      ∀ rest, leading a (tail ++ rest) = (c, tail.length) := by
  have hmax : c.toNat < 0x110000 := by
    rcases c.valid with h | h
    · exact Nat.lt_trans h (by decide)
    · exact h.2
  have hv : c.val.toNat = c.toNat := rfl
  -- the six bits of a continuing byte
  have hsix : ∀ n : Nat, n % 64 < 64 := fun n => Nat.mod_lt n (by decide)
  simp only [String.utf8EncodeChar, hv]
  -- one byte
  by_cases h₁ : c.toNat ≤ 0x7f
  · have ha : (UInt8.ofNat c.toNat).toNat = c.toNat := toNat_ofNat (by omega)
    have hlt : UInt8.ofNat c.toNat < 0x80 := by
      rw [UInt8.lt_iff_toNat_lt, ha]
      exact Nat.lt_succ_of_le h₁
    rw [if_pos h₁]
    refine ⟨_, [], rfl, isTail_of_lt hlt, fun rest => ?_⟩
    simp only [leading, if_pos hlt, ha, Char.ofNat_toNat, List.length_nil]
  rw [if_neg h₁]
  -- two bytes
  by_cases h₂ : c.toNat ≤ 0x7ff
  · have hx : c.toNat / 64 % 32 < 32 := Nat.mod_lt _ (by decide)
    have hlead := le_ofNat 0xc0 (Nat.lt_of_lt_of_le (Nat.add_lt_add_right hx 192) (by decide))
    rw [if_pos h₂]
    exact ⟨_, [_], rfl, isTail_of_le hlead,
      leading_pair hlead (pair?_eq hx (hsix _) (by omega) (by omega))⟩
  rw [if_neg h₂]
  -- three bytes or four
  by_cases h₃ : c.toNat ≤ 0xffff
  · have hx : c.toNat / 4096 % 16 < 16 := Nat.mod_lt _ (by decide)
    have hsum : c.toNat / 4096 % 16 * 4096 + c.toNat / 64 % 64 * 64 + c.toNat % 64 = c.toNat := by
      omega
    have hlead := le_ofNat 0xe0 (Nat.lt_of_lt_of_le (Nat.add_lt_add_right hx 224) (by decide))
    rw [if_pos h₃]
    exact ⟨_, [_, _], rfl, isTail_of_le (UInt8.le_trans (by decide) hlead),
      leading_triple hlead (triple?_eq hx (hsix _) (hsix _) hsum (by omega))⟩
  · have hw : c.toNat / 262144 % 8 < 8 := Nat.mod_lt _ (by decide)
    have hsum : c.toNat / 262144 % 8 * 262144 + c.toNat / 4096 % 64 * 4096 +
        c.toNat / 64 % 64 * 64 + c.toNat % 64 = c.toNat := by
      omega
    have hlead := le_ofNat 0xf0 (Nat.lt_of_lt_of_le (Nat.add_lt_add_right hw 240) (by decide))
    rw [if_neg h₃]
    exact ⟨_, [_, _, _], rfl, isTail_of_le (UInt8.le_trans (by decide) hlead),
      leading_quadruple hlead (quadruple?_eq hw (hsix _) (hsix _) (hsix _) hsum (by omega))⟩

/-! ### One spelling after the other -/

theorem spellingsAfter_eq (skip : Nat) (s : List UInt8) :
    spellingsAfter skip s = spellings (s.drop skip) := by
  induction s generalizing skip with
  | nil => cases skip <;> rfl
  | cons a s ih =>
    cases skip with
    | zero => rfl
    | succ skip => exact ih skip

/-- The first character is spelled in front of the others. -/
theorem spellings_cons (a : UInt8) (rest : List UInt8) :
    spellings (a :: rest) = ⟨(leading a rest).1, a :: rest.take (leading a rest).2⟩ ::
      spellings (rest.drop (leading a rest).2) := by
  rw [← spellingsAfter_eq]
  rfl

/-- Decoding gives the characters that are spelled. -/
theorem map_char_spellings (s : List UInt8) : (spellings s).map Spelling.char = decode s := by
  have hafter : ∀ skip, (spellingsAfter skip s).map Spelling.char = decodeAfter skip s := by
    induction s with
    | nil => intro skip; cases skip <;> rfl
    | cons a s ih =>
      intro skip
      cases skip with
      | zero => rw [spellingsAfter, decodeAfter, List.map_cons, ih]
      | succ skip => exact ih skip
  exact hafter 0

theorem spellings_utf8EncodeChar_append (c : Char) (rest : List UInt8) :
    spellings (String.utf8EncodeChar c ++ rest) =
      ⟨c, String.utf8EncodeChar c⟩ :: spellings rest := by
  obtain ⟨a, tail, hc, -, hlead⟩ := exists_leading c
  rw [hc, List.cons_append, spellings_cons, hlead, List.take_left, List.drop_left]

/-- **The bytes of a text spell its characters**, with anything behind them. -/
theorem spellings_encode_append (s : List Char) (rest : List UInt8) :
    spellings (encode s ++ rest) =
      (s.map fun c => ⟨c, String.utf8EncodeChar c⟩) ++ spellings rest := by
  induction s with
  | nil => rfl
  | cons c s ih =>
    rw [encode, List.flatMap_cons, List.append_assoc, spellings_utf8EncodeChar_append, ← encode,
      ih, List.map_cons, List.cons_append]

theorem spellings_encode (s : List Char) :
    spellings (encode s) = s.map fun c => ⟨c, String.utf8EncodeChar c⟩ := by
  have h := spellings_encode_append s []
  rwa [List.append_nil, show spellings [] = [] from rfl, List.append_nil] at h

theorem decode_encode_append (s : List Char) (rest : List UInt8) :
    decode (encode s ++ rest) = s ++ decode rest := by
  rw [← map_char_spellings, spellings_encode_append, List.map_append, map_char_spellings,
    List.map_map]
  congr 1
  exact List.map_id s

theorem decode_encode (s : List Char) : decode (encode s) = s := by
  have h := decode_encode_append s []
  rwa [List.append_nil, show decode [] = [] from rfl, List.append_nil] at h

theorem length_decode (s : List UInt8) : (decode s).length = (spellings s).length := by
  rw [← map_char_spellings, List.length_map]

/-- **The bytes of a text are decoded to the text.** -/
theorem decode_bytes (s : String) : decode (bytes s) = s.toList := by
  rw [bytes_eq_encode, decode_encode]

/-! ### Bytes that part a text

Only continuing bytes belong to a character that started in front of them.  So decoding may
be done in front of any other byte and behind it apart, also where the bytes in front end in
the middle of a character. -/

/-- The bytes do not go on with a character that started in front of them. -/
def Starts (s : List UInt8) : Prop := ∀ a ∈ s.head?, isTail a = false

theorem Starts.nil : Starts [] := by simp [Starts]

theorem starts_cons {a : UInt8} {s : List UInt8} : Starts (a :: s) ↔ isTail a = false := by
  simp [Starts]

theorem Starts.append {s t : List UInt8} (hs : Starts s) (ht : Starts t) : Starts (s ++ t) := by
  cases s with
  | nil => exact ht
  | cons a s => exact starts_cons.mpr (starts_cons.mp hs)

/-- A text starts a character unless it is empty. -/
theorem starts_encode_append {s : List Char} (hs : s ≠ []) (rest : List UInt8) :
    Starts (encode s ++ rest) := by
  obtain ⟨c, s, rfl⟩ := List.exists_cons_of_ne_nil hs
  obtain ⟨a, tail, hc, ha, -⟩ := exists_leading c
  rw [encode, List.flatMap_cons, hc]
  exact starts_cons.mpr ha

theorem starts_encode (s : List Char) : Starts (encode s) := by
  cases s with
  | nil => exact .nil
  | cons c s =>
    rw [← List.append_nil (encode _)]
    exact starts_encode_append (List.cons_ne_nil c s) []

theorem leading_append_of_starts (a : UInt8) (front : List UInt8) {rest : List UInt8}
    (h : Starts rest) : leading a (front ++ rest) = leading a front := by
  cases rest with
  | nil => rw [List.append_nil]
  | cons b rest =>
    have hb : isTail b = false := starts_cons.mp h
    have hpair : ∀ x, pair? x b = none := by simp [pair?, hb]
    have htriple : ∀ x y, triple? x y b = none ∧ triple? x b y = none := by simp [triple?, hb]
    have hquadruple : ∀ x y z, quadruple? x y z b = none ∧ quadruple? x y b z = none ∧
        quadruple? x b y z = none := by
      simp [quadruple?, hb]
    -- at most three bytes behind `a` are looked at
    rcases front with - | ⟨x, - | ⟨y, - | ⟨z, front⟩⟩⟩
    · rcases rest with - | ⟨c, - | ⟨d, rest⟩⟩ <;> simp [leading, hpair, htriple, hquadruple]
    · rcases rest with - | ⟨c, rest⟩ <;> cases hx : pair? a x <;>
        simp [leading, hx, htriple, hquadruple]
    · cases hx : pair? a x <;> cases hy : triple? a x y <;> simp [leading, hx, hy, hquadruple]
    · cases hx : pair? a x <;> cases hy : triple? a x y <;> simp [leading, hx, hy]

/-- With more bytes behind, a character is the same and uses up as many, unless it needs some of
these and used up none without them. -/
theorem leading_append (a : UInt8) (p q : List UInt8) :
    leading a (p ++ q) = leading a p ∨
      p.length < (leading a (p ++ q)).2 ∧ (leading a p).2 = 0 := by
  by_cases ha : a < 0x80
  · simp [leading, ha]
  · -- at most three bytes behind `a` are looked at
    rcases p with - | ⟨x, - | ⟨y, - | ⟨z, p⟩⟩⟩
    · rcases q with - | ⟨x, - | ⟨y, - | ⟨z, q⟩⟩⟩
      · simp
      · cases hx : pair? a x <;> simp [leading, ha, hx]
      · cases hx : pair? a x <;> cases hy : triple? a x y <;> simp [leading, ha, hx, hy]
      · cases hx : pair? a x <;> cases hy : triple? a x y <;> cases hz : quadruple? a x y z <;>
          simp [leading, ha, hx, hy, hz]
    · rcases q with - | ⟨y, - | ⟨z, q⟩⟩
      · simp
      · cases hx : pair? a x <;> cases hy : triple? a x y <;> simp [leading, ha, hx, hy]
      · cases hx : pair? a x <;> cases hy : triple? a x y <;> cases hz : quadruple? a x y z <;>
          simp [leading, ha, hx, hy, hz]
    · rcases q with - | ⟨z, q⟩
      · simp
      · cases hx : pair? a x <;> cases hy : triple? a x y <;> cases hz : quadruple? a x y z <;>
          simp [leading, ha, hx, hy, hz]
    · cases hx : pair? a x <;> cases hy : triple? a x y <;> simp [leading, ha, hx, hy]

/-- A continuing byte leads nothing. -/
theorem leading_of_isTail {a : UInt8} (h : isTail a = true) (rest : List UInt8) :
    leading a rest = (replacement, 0) := by
  obtain ⟨hle, hlt⟩ : 0x80 ≤ a ∧ a < 0xc0 := by simpa [isTail] using h
  have hascii : ¬a < 0x80 := UInt8.not_lt.mpr hle
  have hbelow : ∀ lo : UInt8, 0xc0 ≤ lo → decide (lo ≤ a) = false := fun lo hlo =>
    decide_eq_false (UInt8.not_le.mpr (UInt8.lt_of_lt_of_le hlt hlo))
  have hpair : ∀ b, pair? a b = none := by simp [pair?, hbelow 0xc0 (by decide)]
  have htriple : ∀ b c, triple? a b c = none := by simp [triple?, hbelow 0xe0 (by decide)]
  have hquadruple : ∀ b c d, quadruple? a b c d = none := by
    simp [quadruple?, hbelow 0xf0 (by decide)]
  rcases rest with - | ⟨b, - | ⟨c, - | ⟨d, rest⟩⟩⟩ <;>
    simp [leading, hascii, hpair, htriple, hquadruple]

theorem leading_le_length (a : UInt8) (rest : List UInt8) : (leading a rest).2 ≤ rest.length := by
  fun_cases leading a rest <;> simp

/-- The bytes that a character uses up behind its first one are continuing bytes. -/
theorem isTail_of_mem_take_leading {a b : UInt8} {rest : List UInt8}
    (h : b ∈ rest.take (leading a rest).2) : isTail b = true := by
  have hpair : ∀ {b x}, pair? a b = some x → isTail b = true := by
    intro b x hx
    rw [pair?, Option.ite_none_right_eq_some] at hx
    simp_all
  have htriple : ∀ {b c x}, triple? a b c = some x → isTail b = true ∧ isTail c = true := by
    intro b c x hx
    rw [triple?, Option.ite_none_right_eq_some] at hx
    simp_all
  have hquadruple : ∀ {b c d x}, quadruple? a b c d = some x →
      isTail b = true ∧ isTail c = true ∧ isTail d = true := by
    intro b c d x hx
    rw [quadruple?, Option.ite_none_right_eq_some] at hx
    simp_all
  fun_cases leading a rest
  case case3 b' _ x hx =>
    obtain rfl : b = b' := by simpa [leading, *] using h
    exact hpair hx
  case case5 b' c' _ x _ hx =>
    obtain rfl | rfl : b = b' ∨ b = c' := by simpa [leading, *] using h
    · exact (htriple hx).1
    · exact (htriple hx).2
  case case7 b' c' _ d' _ _ x hx =>
    obtain rfl | rfl | rfl : b = b' ∨ b = c' ∨ b = d' := by simpa [leading, *] using h
    · exact (hquadruple hx).1
    · exact (hquadruple hx).2.1
    · exact (hquadruple hx).2.2
  -- nothing is used up
  all_goals simp [leading, *] at h

/-- **Bytes are read apart where no character goes on.** -/
theorem spellings_append (front : List UInt8) {rest : List UInt8} (h : Starts rest) :
    spellings (front ++ rest) = spellings front ++ spellings rest := by
  have hafter : ∀ (skip : Nat) (front : List UInt8), skip ≤ front.length →
      spellingsAfter skip (front ++ rest) = spellingsAfter skip front ++ spellings rest := by
    intro skip front hskip
    induction front generalizing skip with
    | nil =>
      obtain rfl : skip = 0 := Nat.le_zero.mp hskip
      rfl
    | cons a front ih =>
      cases skip with
      | zero =>
        have hle := leading_le_length a front
        rw [List.cons_append, spellingsAfter, spellingsAfter, leading_append_of_starts a front h,
          List.take_append_of_le_length hle, ih _ hle, List.cons_append]
      | succ skip => exact ih skip (Nat.le_of_succ_le_succ hskip)
  exact hafter 0 front (Nat.zero_le _)

theorem decode_append (front : List UInt8) {rest : List UInt8} (h : Starts rest) :
    decode (front ++ rest) = decode front ++ decode rest := by
  rw [← map_char_spellings, spellings_append front h, List.map_append, map_char_spellings,
    map_char_spellings]

/-- **Decoding is done apart on the two sides of a byte below 128.** -/
theorem decode_append_of_lt (front : List UInt8) {b : UInt8} (h : b < 0x80) (rest : List UInt8) :
    decode (front ++ b :: rest) = decode front ++ decode (b :: rest) :=
  decode_append front (starts_cons.mpr (isTail_of_lt h))

theorem le_toNat_of_scalar? {least n : Nat} {c : Char} (h : scalar? least n = some c) :
    least ≤ c.toNat := by
  rw [scalar?] at h
  split at h
  · next hn =>
    obtain rfl := Option.some.inj h
    rw [Char.ofNat, dif_pos hn.2]
    exact hn.1
  · cases h

/-- What uses up no further bytes is no character, unless it is a byte below 128. -/
theorem leading_eq_replacement {a : UInt8} (h : ¬a < 0x80) {rest : List UInt8}
    (hnone : (leading a rest).2 = 0) : (leading a rest).1 = replacement := by
  fun_cases leading a rest
  case case1 => contradiction
  case case3 | case5 | case7 => simp [leading, *] at hnone
  -- the bytes spell no character
  all_goals rfl

/-- What is not a byte below 128 spells a character that is not below 128. -/
theorem le_toNat_leading {a : UInt8} (h : ¬a < 0x80) (rest : List UInt8) :
    0x80 ≤ (leading a rest).1.toNat := by
  have hreplacement : 0x80 ≤ replacement.toNat := by decide
  have hpair : ∀ {b c}, pair? a b = some c → 0x80 ≤ c.toNat := by
    intro b c hc
    rw [pair?, Option.ite_none_right_eq_some] at hc
    exact le_toNat_of_scalar? hc.2
  have htriple : ∀ {b b' c}, triple? a b b' = some c → 0x80 ≤ c.toNat := by
    intro b b' c hc
    rw [triple?, Option.ite_none_right_eq_some] at hc
    exact Nat.le_trans (by decide) (le_toNat_of_scalar? hc.2)
  have hquadruple : ∀ {b b' b'' c}, quadruple? a b b' b'' = some c → 0x80 ≤ c.toNat := by
    intro b b' b'' c hc
    rw [quadruple?, Option.ite_none_right_eq_some] at hc
    exact Nat.le_trans (by decide) (le_toNat_of_scalar? hc.2)
  fun_cases leading a rest
  case case1 => contradiction
  case case3 b _ c hc => exact hpair hc
  case case5 b b' _ c _ hc => exact htriple hc
  case case7 b b' _ b'' _ _ c hc => exact hquadruple hc
  -- the bytes spell no character
  all_goals exact hreplacement

/-- **A character below 128 comes from its byte**, and what is decoded in front of it and
behind it comes from the bytes in front of that and behind it. -/
theorem exists_of_decode_eq_append {c : Char} (hc : c.toNat < 0x80) {raw : List UInt8}
    {x y : List Char} (h : decode raw = x ++ c :: y) :
    ∃ front behind, raw = front ++ UInt8.ofNat c.toNat :: behind ∧
      decode front = x ∧ decode behind = y := by
  have hafter : ∀ (skip : Nat) (raw : List UInt8) (x : List Char),
      decodeAfter skip raw = x ++ c :: y →
      ∃ front behind, raw = front ++ UInt8.ofNat c.toNat :: behind ∧
        decodeAfter skip front = x ∧ decode behind = y := by
    intro skip raw
    induction raw generalizing skip with
    | nil =>
      intro x hx
      cases skip <;> simp [decodeAfter] at hx
    | cons a raw ih =>
      intro x hx
      cases skip with
      | succ skip =>
        obtain ⟨front, behind, rfl, hfront, hbehind⟩ := ih skip x hx
        exact ⟨a :: front, behind, rfl, hfront, hbehind⟩
      | zero =>
        rw [decodeAfter] at hx
        cases x with
        | nil =>
          obtain ⟨hhead, hrest⟩ := List.cons.inj hx
          by_cases ha : a < 0x80
          · have hlead : leading a raw = (Char.ofNat a.toNat, 0) := by simp [leading, ha]
            have hbyte : UInt8.ofNat c.toNat = a := by
              rw [← hhead, hlead, toNat_char, UInt8.ofNat_toNat]
            rw [hlead] at hrest
            exact ⟨[], raw, by rw [hbyte, List.nil_append], rfl, hrest⟩
          · have hle := le_toNat_leading ha raw
            rw [hhead] at hle
            exact absurd hc (Nat.not_lt.mpr hle)
        | cons d x =>
          obtain ⟨hhead, hrest⟩ := List.cons.inj hx
          obtain ⟨front, behind, rfl, hfront, hbehind⟩ := ih _ x hrest
          -- what `a` leads does not reach as far as the byte of `c`
          have hlt : UInt8.ofNat c.toNat < 0x80 := by
            rw [UInt8.lt_iff_toNat_lt, toNat_ofNat (Nat.lt_trans hc (by decide))]
            exact hc
          rw [leading_append_of_starts a front (starts_cons.mpr (isTail_of_lt hlt))] at hhead hfront
          exact ⟨a :: front, behind, rfl, by rw [decodeAfter, hhead, hfront], hbehind⟩
  exact hafter 0 raw x h

theorem mem_of_mem_decode {c : Char} (hc : c.toNat < 0x80) {raw : List UInt8}
    (h : c ∈ decode raw) : UInt8.ofNat c.toNat ∈ raw := by
  obtain ⟨x, y, hxy⟩ := List.append_of_mem h
  obtain ⟨front, behind, rfl, -, -⟩ := exists_of_decode_eq_append hc hxy
  simp

/-- A character below 128 is what its byte spells, wherever it stands. -/
theorem decode_append_ofNat {c : Char} (hc : c.toNat < 0x80) (front behind : List UInt8) :
    decode (front ++ UInt8.ofNat c.toNat :: behind) = decode front ++ c :: decode behind := by
  have hbyte : (UInt8.ofNat c.toNat).toNat = c.toNat := toNat_ofNat (Nat.lt_trans hc (by decide))
  have hlt : UInt8.ofNat c.toNat < 0x80 := by
    rw [UInt8.lt_iff_toNat_lt, hbyte]
    exact hc
  rw [decode_append_of_lt front hlt, decode_cons_of_lt hlt, hbyte, Char.ofNat_toNat]

/-- **Bytes may be cut at a byte below 128 before they are decoded.** -/
theorem decode_splitOn {c : Char} (hc : c.toNat < 0x80) (raw : List UInt8) :
    (decode raw).splitOn c = (raw.splitOn (UInt8.ofNat c.toNat)).map decode := by
  induction raw using inductionOnPieces (c := UInt8.ofNat c.toNat) with
  | last raw hraw =>
    have hdecode : c ∉ decode raw := fun h => hraw (mem_of_mem_decode hc h)
    rw [List.splitOn_eq_singleton hraw, List.splitOn_eq_singleton hdecode, List.map_singleton]
  | front raw behind hraw ih =>
    have hdecode : c ∉ decode raw := fun h => hraw (mem_of_mem_decode hc h)
    rw [decode_append_ofNat hc, List.splitOn_append_cons_self_of_not_mem hdecode,
      List.splitOn_append_cons_self_of_not_mem hraw, ih, List.map_cons]

end TexTree.Utf8

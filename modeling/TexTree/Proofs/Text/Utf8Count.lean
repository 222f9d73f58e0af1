/-
TexTree/Proofs/Text/Utf8Count.lean

How many characters bytes spell.  Bytes that are joined spell at most as many characters
as they do apart,

    length (decode (p ++ q))  ≤  length (decode p) + length (decode q)

and strictly fewer when a character begins in `p` and ends in `q`: apart, each of its bytes
is a character of its own.  So taking out bytes below 128 never makes a text longer
(`length_decode_filter_le`), although the bytes on their two sides may come together.

Design.  Where bytes are joined, all characters are as before but the one that lies across
the seam, and it has a byte on each side of that (`sideBySide`).
-/
import TexTree.Proofs.Text.Bytes

namespace TexTree.Utf8

/-! ### Bytes side by side -/

/-- **Bytes that are joined spell at most as many characters as apart.** -/
theorem length_decode_append_le (p q : List UInt8) :
    (decode (p ++ q)).length ≤ (decode p).length + (decode q).length := by
  rw [length_decode, length_decode, length_decode]
  cases sideBySide p q with
  | apart h => rw [h, List.length_append]
  | across front x left right behind h hp hq _ hleft =>
    have hpos : 0 < left.length := List.length_pos_iff.mpr hleft
    rw [h, hp, hq]
    simp only [List.length_append, List.length_cons, List.length_map]
    omega

/-! ### Taking bytes out -/

section Filter

variable {keep : UInt8 → Bool}

/-- **Taking out bytes below 128 makes no text longer.** -/
theorem length_decode_filter_le (hkeep : ∀ b, 0x80 ≤ b → keep b = true) (raw : List UInt8) :
    (decode (raw.filter keep)).length ≤ (decode raw).length := by
  -- the bytes in front of those that are looked at have all been kept
  have hbehind : ∀ p : List UInt8,
      (decode (p ++ raw.filter keep)).length ≤ (decode (p ++ raw)).length := by
    induction raw with
    | nil => exact fun p => Nat.le_refl _
    | cons b raw ih =>
      intro p
      by_cases hb : keep b = true
      · have hnext := ih (p ++ [b])
        rw [List.append_assoc, List.append_assoc] at hnext
        rw [List.filter_cons_of_pos hb]
        exact hnext
      · have hlt : b < 0x80 := by
          by_contra hle
          exact hb (hkeep b (UInt8.not_lt.mp hle))
        have hjoined := Nat.le_trans (ih p) (length_decode_append_le p raw)
        rw [List.filter_cons_of_neg hb, decode_append_of_lt p hlt, decode_cons_of_lt hlt,
          List.length_append, List.length_cons]
        omega
  exact hbehind []

/-- A character below 128 occurs as often as its byte. -/
theorem count_decode {c : Char} (hc : c.toNat < 0x80) (raw : List UInt8) :
    (decode raw).count c = raw.count (UInt8.ofNat c.toNat) := by
  induction raw using inductionOnPieces (c := UInt8.ofNat c.toNat) with
  | last raw hraw =>
    rw [List.count_eq_zero_of_not_mem hraw,
      List.count_eq_zero_of_not_mem fun h => hraw (mem_of_mem_decode hc h)]
  | front raw behind hraw ih =>
    rw [decode_append_ofNat hc, List.count_append, List.count_append, List.count_cons_self,
      List.count_cons_self, ih, List.count_eq_zero_of_not_mem hraw,
      List.count_eq_zero_of_not_mem fun h => hraw (mem_of_mem_decode hc h)]

/-- A character below 128 that is not taken out occurs as often as before. -/
theorem count_decode_filter {c : Char} (hc : c.toNat < 0x80)
    (hkeep : keep (UInt8.ofNat c.toNat) = true) (raw : List UInt8) :
    (decode (raw.filter keep)).count c = (decode raw).count c := by
  rw [count_decode hc, count_decode hc, List.count_filter hkeep]

end Filter

end TexTree.Utf8

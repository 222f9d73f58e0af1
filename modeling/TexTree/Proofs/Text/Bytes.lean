/-
TexTree/Proofs/Text/Bytes.lean

Bytes that need not be UTF-8, character by character.  The characters that the bytes spell
may be looked at one by one, as those of a text may be:

    spellings (trim s)  =  the spellings of s, without the blank ones at both ends
    trim (encode s)     =  encode (trim s)

and `kept keep s` are the spellings of the characters that `keep` keeps.

Design.  Where spellings are taken away, the bytes in front and behind could come together
to spell something else.  They do not when what stays is a stretch of the spellings: its
bytes spell just these (`spellings_of_front`, `spellings_of_behind`).  And a text that is put
between bytes keeps them apart (`kept_between`), unless it is empty.  Of bytes side by side
only one character can be other than it was, that which lies across the seam; apart, each of
its bytes is lost (`sideBySide`).
-/
import TexTree.Proofs.Text.Trim
import TexTree.Proofs.Text.Utf8

namespace TexTree.Utf8

/-! ### Stretches of the spellings -/

/-- All bytes belong to a spelling. -/
theorem flatMap_bytes_spellings (s : List UInt8) : (spellings s).flatMap Spelling.bytes = s := by
  have hafter : ∀ skip, (spellingsAfter skip s).flatMap Spelling.bytes = s.drop skip := by
    induction s with
    | nil => intro skip; cases skip <;> rfl
    | cons a s ih =>
      intro skip
      cases skip with
      | zero =>
        rw [spellingsAfter, List.flatMap_cons, ih, List.cons_append, List.take_append_drop,
          List.drop_zero]
      | succ skip => exact ih skip
  exact hafter 0

theorem spellings_of_behind {s : List UInt8} {u v : List Spelling}
    (h : spellings s = u ++ v) : spellings (v.flatMap Spelling.bytes) = v := by
  induction u generalizing s with
  | nil =>
    obtain rfl : spellings s = v := h
    rw [flatMap_bytes_spellings]
  | cons x u ih =>
    cases s with
    | nil => cases h
    | cons a s =>
      rw [spellings_cons] at h
      exact ih (List.cons.inj h).2

theorem spellings_of_front {s : List UInt8} {u v : List Spelling}
    (h : spellings s = u ++ v) : spellings (u.flatMap Spelling.bytes) = u := by
  induction u generalizing s with
  | nil => rfl
  | cons x u ih =>
    cases s with
    | nil => cases h
    | cons a s =>
      rw [spellings_cons] at h
      obtain rfl := (List.cons.inj h).1
      have hrest : spellings (s.drop (leading a s).2) = u ++ v := (List.cons.inj h).2
      have hlength : (s.take (leading a s).2).length = (leading a s).2 :=
        List.length_take_of_le (leading_le_length a s)
      -- fewer bytes stand behind `a` than in `s`, but all those that it uses up
      have hlead : leading a (s.take (leading a s).2 ++ u.flatMap Spelling.bytes) =
          leading a s := by
        have hsplit : s = (s.take (leading a s).2 ++ u.flatMap Spelling.bytes) ++
            v.flatMap Spelling.bytes := by
          rw [List.append_assoc, ← List.flatMap_append, ← hrest, flatMap_bytes_spellings,
            List.take_append_drop]
        rcases leading_append a _ (v.flatMap Spelling.bytes) with hsame | ⟨hlt, -⟩
        · rw [← hsplit] at hsame
          exact hsame.symm
        · rw [← hsplit, List.length_append, hlength] at hlt
          omega
      rw [List.flatMap_cons, List.cons_append, spellings_cons, hlead, List.take_left' hlength,
        List.drop_left' hlength, ih hrest]

/-! ### Bytes side by side -/

/-- A byte that belongs to no character. -/
def lost (b : UInt8) : Spelling := ⟨replacement, [b]⟩

/-- How bytes are read side by side, and each on their own. -/
inductive SideBySide (s t : List UInt8) : Prop
  /-- The characters stay what they are. -/
  | apart (h : spellings (s ++ t) = spellings s ++ spellings t)
  /-- A character lies across the seam, and apart each of its bytes is lost. -/
  | across (front : List Spelling) (x : Spelling) (left right : List UInt8)
      (behind : List Spelling) (h : spellings (s ++ t) = front ++ x :: behind)
      (hs : spellings s = front ++ left.map lost) (ht : spellings t = right.map lost ++ behind)
      (hx : 0x80 ≤ x.char.toNat ∧ x.bytes = left ++ right) (hleft : left ≠ [])

/-- Continuing bytes that continue nothing are lost. -/
theorem spellings_append_of_isTail {s : List UInt8} (h : ∀ b ∈ s, isTail b = true)
    (rest : List UInt8) : spellings (s ++ rest) = s.map lost ++ spellings rest := by
  induction s with
  | nil => rfl
  | cons b s ih =>
    obtain ⟨hb, hs⟩ := List.forall_mem_cons.mp h
    rw [List.cons_append, spellings_cons, leading_of_isTail hb, List.take_zero, List.drop_zero,
      ih hs]
    rfl

/-- A first character that is the same side by side may be left out. -/
theorem SideBySide.cons {a : UInt8} {s t : List UInt8} (hsame : leading a (s ++ t) = leading a s)
    (h : SideBySide (s.drop (leading a s).2) t) : SideBySide (a :: s) t := by
  have hle : (leading a s).2 ≤ s.length := leading_le_length a s
  have hstep : spellings (a :: s ++ t) = ⟨(leading a s).1, a :: s.take (leading a s).2⟩ ::
      spellings (s.drop (leading a s).2 ++ t) := by
    rw [List.cons_append, spellings_cons, hsame, List.take_append_of_le_length hle,
      List.drop_append_of_le_length hle]
  cases h with
  | apart h => exact .apart (by rw [hstep, h, spellings_cons a s, List.cons_append])
  | across front x left right behind h hs ht hx hleft =>
    exact .across (_ :: front) x left right behind (by rw [hstep, h, List.cons_append])
      (by rw [spellings_cons a s, hs, List.cons_append]) ht hx hleft

/-- A first character that reaches into `t` is none without the bytes there. -/
theorem sideBySide_of_lt {a : UInt8} {s t : List UInt8}
    (hlt : s.length < (leading a (s ++ t)).2) (hnone : (leading a s).2 = 0) :
    SideBySide (a :: s) t := by
  have hhigh : ¬a < 0x80 := fun ha => by simp [leading, ha] at hlt
  obtain ⟨k, hk⟩ := Nat.exists_eq_add_of_le (Nat.le_of_lt hlt)
  have htake : (s ++ t).take (leading a (s ++ t)).2 = s ++ t.take k := by
    rw [hk, List.take_length_add_append]
  have htails : ∀ b ∈ s ++ t.take k, isTail b = true := by
    intro b hb
    rw [← htake] at hb
    exact isTail_of_mem_take_leading hb
  obtain ⟨hs, ht⟩ := List.forall_mem_append.mp htails
  have hfront : spellings (a :: s) = (a :: s).map lost := by
    have hrest := spellings_append_of_isTail hs []
    rw [List.append_nil, show spellings [] = [] from rfl, List.append_nil] at hrest
    rw [spellings_cons, hnone, leading_eq_replacement hhigh hnone, List.take_zero,
      List.drop_zero, hrest]
    rfl
  have hbehind : spellings t = (t.take k).map lost ++ spellings (t.drop k) := by
    conv_lhs => rw [← List.take_append_drop k t]
    exact spellings_append_of_isTail ht _
  refine .across [] ⟨(leading a (s ++ t)).1, a :: (s ++ t.take k)⟩ (a :: s) (t.take k)
    (spellings (t.drop k)) ?_ hfront hbehind ⟨le_toNat_leading hhigh _, rfl⟩
    (List.cons_ne_nil a s)
  rw [List.cons_append, spellings_cons, htake, List.nil_append]
  congr 2
  rw [hk, List.drop_length_add_append]

/-- **Side by side, all characters are as before but one** that may lie across the seam. -/
theorem sideBySide (s t : List UInt8) : SideBySide s t := by
  induction hn : s.length using Nat.strong_induction_on generalizing s with
  | _ n ih =>
    cases s with
    | nil => exact .apart rfl
    | cons a s =>
      rcases leading_append a s t with hsame | ⟨hlt, hnone⟩
      · have hshorter : (s.drop (leading a s).2).length < n := by
          rw [← hn, List.length_drop, List.length_cons]
          omega
        exact .cons hsame (ih _ hshorter _ rfl)
      · exact sideBySide_of_lt hlt hnone

section Counting

variable {q : Char → Bool} {s t : List UInt8}

/-- No character that `q` holds of lies across the seam: side by side there are as many of them
as apart. -/
def NoneAcross (q : Char → Bool) (s t : List UInt8) : Prop :=
  (decode (s ++ t)).countP q = (decode s).countP q + (decode t).countP q

theorem countP_decode (q : Char → Bool) (s : List UInt8) :
    (decode s).countP q = (spellings s).countP fun x => q x.char := by
  rw [← map_char_spellings, List.countP_map]
  rfl

theorem noneAcross_of_starts (q : Char → Bool) (s : List UInt8) (h : Starts t) :
    NoneAcross q s t := by
  rw [NoneAcross, decode_append s h, List.countP_append]

/-- The character across the seam is all that is gained or lost. -/
theorem countP_of_across (hq : q replacement = false) {front behind : List Spelling}
    {x : Spelling} {left right : List UInt8} (h : spellings (s ++ t) = front ++ x :: behind)
    (hs : spellings s = front ++ left.map lost) (ht : spellings t = right.map lost ++ behind) :
    (decode (s ++ t)).countP q =
      (decode s).countP q + (decode t).countP q + if q x.char then 1 else 0 := by
  have hlost (l : List UInt8) : ((l.map lost).countP fun x => q x.char) = 0 := by
    rw [List.countP_map, List.countP_eq_zero]
    exact fun b _ => by simp [lost, hq]
  rw [countP_decode, countP_decode, countP_decode, h, hs, ht, List.countP_append,
    List.countP_append, List.countP_append, List.countP_cons, hlost, hlost]
  omega

/-- Apart there are no more characters that `q` holds of than side by side. -/
theorem countP_decode_append_le (hq : q replacement = false) (s t : List UInt8) :
    (decode s).countP q + (decode t).countP q ≤ (decode (s ++ t)).countP q := by
  cases sideBySide s t with
  | apart h => rw [countP_decode, countP_decode, countP_decode, h, List.countP_append]
  | across front x left right behind h hs ht =>
    rw [countP_of_across hq h hs ht]
    exact Nat.le_add_right _ _

/-- A character that is apart does not lie across the seam. -/
theorem NoneAcross.eq_false (h : NoneAcross q s t) (hq : q replacement = false)
    {front behind : List Spelling} {x : Spelling} {left right : List UInt8}
    (hst : spellings (s ++ t) = front ++ x :: behind)
    (hs : spellings s = front ++ left.map lost) (ht : spellings t = right.map lost ++ behind) :
    q x.char = false := by
  rw [NoneAcross, countP_of_across hq hst hs ht] at h
  by_contra hx
  rw [if_pos (by simpa using hx)] at h
  omega

end Counting

/-! ### Trimming -/

/-- **Trimming takes blank characters away and leaves the others as they are spelled.** -/
theorem spellings_trim (s : List UInt8) :
    spellings (trim s) = trimBy (fun x => isBlank x.char) (spellings s) := by
  obtain ⟨lead, trail, -, -, hs⟩ :=
    exists_eq_append_trimBy (fun x : Spelling => isBlank x.char) (spellings s)
  exact spellings_of_behind (spellings_of_front hs)

/-- The bytes of a text are trimmed like the text. -/
theorem trim_encode (s : List Char) : trim (encode s) = encode (TexTree.trim s) := by
  rw [trim, spellings_encode, trim_eq_trimBy, ← map_trimBy, encode, List.flatMap_map]

/-! ### What is kept of bytes -/

/-- The spellings of the characters that `keep` keeps. -/
def kept (keep : Char → Bool) (s : List UInt8) : List Spelling :=
  (spellings s).filter fun x => keep x.char

variable {keep : Char → Bool}

theorem kept_encode (keep : Char → Bool) (s : List Char) :
    kept keep (encode s) = (s.filter keep).map fun c => ⟨c, String.utf8EncodeChar c⟩ := by
  rw [kept, spellings_encode, List.filter_map]
  rfl

theorem kept_append (front : List UInt8) {rest : List UInt8} (h : Starts rest) :
    kept keep (front ++ rest) = kept keep front ++ kept keep rest := by
  rw [kept, spellings_append front h, List.filter_append, kept, kept]

theorem kept_encode_append (s : List Char) (rest : List UInt8) :
    kept keep (encode s ++ rest) = kept keep (encode s) ++ kept keep rest := by
  rw [kept, spellings_encode_append, List.filter_append, kept, kept, spellings_encode]

/-- **A text keeps apart what stands on its two sides**, unless it is empty. -/
theorem kept_between (front : List UInt8) {s : List Char} (hs : s ≠ []) (rest : List UInt8) :
    kept keep (front ++ (encode s ++ rest)) =
      kept keep front ++ (kept keep (encode s) ++ kept keep rest) := by
  rw [kept_append front (starts_encode_append hs rest), kept_encode_append]

/-- Of a text nothing is kept when its characters are not. -/
theorem kept_encode_eq_nil {s : List Char} (h : ∀ c ∈ s, keep c = false) :
    kept keep (encode s) = [] := by
  rw [kept_encode, List.map_eq_nil_iff, List.filter_eq_nil_iff]
  intro c hc
  simp [h c hc]

/-- Blank characters may be taken out before trimming or after. -/
theorem kept_trim (hkeep : ∀ c, keep c = false → isBlank c) (s : List UInt8) :
    kept keep (trim s) = trimBy (fun x => isBlank x.char) (kept keep s) := by
  have hspelling : ∀ x : Spelling, keep x.char = false → isBlank x.char := fun x => hkeep x.char
  rw [kept, spellings_trim, filter_trimBy hspelling, kept]

/-- Where all blank characters are taken out, trimming takes nothing away. -/
theorem kept_trim_eq (hkeep : ∀ c, isBlank c → keep c = false) (s : List UInt8) :
    kept keep (trim s) = kept keep s := by
  have hspelling : ∀ x : Spelling, isBlank x.char → keep x.char = false := fun x => hkeep x.char
  rw [kept, spellings_trim, filter_trimBy_eq hspelling, kept]

/-- Bytes that are lost are kept, if the character that stands for them is. -/
theorem filter_lost (hkeep : keep replacement = true) (l : List UInt8) :
    ((l.map lost).filter fun x => keep x.char) = l.map lost := by
  rw [List.filter_eq_self]
  intro x hx
  obtain ⟨b, -, rfl⟩ := List.mem_map.mp hx
  exact hkeep

theorem flatMap_bytes_lost (l : List UInt8) : (l.map lost).flatMap Spelling.bytes = l := by
  rw [List.flatMap_map]
  exact List.flatMap_singleton' l

/-- **The bytes that are kept of two are those kept of each**, if no character that is not kept
lies across the seam. -/
theorem NoneAcross.flatMap_bytes_kept {s t : List UInt8} (h : NoneAcross (fun c => !keep c) s t)
    (hkeep : keep replacement = true) :
    (kept keep (s ++ t)).flatMap Spelling.bytes =
      (kept keep s).flatMap Spelling.bytes ++ (kept keep t).flatMap Spelling.bytes := by
  cases sideBySide s t with
  | apart hst => rw [kept, hst, List.filter_append, List.flatMap_append, kept, kept]
  | across front x left right behind hst hs ht hx =>
    have hchar : keep x.char = true := by simpa using h.eq_false (by simp [hkeep]) hst hs ht
    rw [kept, kept, kept, hst, hs, ht, List.filter_append, List.filter_append, List.filter_append,
      List.filter_cons_of_pos (p := fun y : Spelling => keep y.char) hchar, filter_lost hkeep,
      filter_lost hkeep]
    simp only [List.flatMap_append, List.flatMap_cons, flatMap_bytes_lost, hx.2, List.append_assoc]

/-- A character below 128 is spelled by its byte, and the bytes of others are 128 at least. -/
theorem of_mem_spellings {s : List UInt8} : ∀ x ∈ spellings s,
    (∃ a, a < 0x80 ∧ x = ⟨Char.ofNat a.toNat, [a]⟩) ∨
      0x80 ≤ x.char.toNat ∧ ∀ b ∈ x.bytes, 0x80 ≤ b := by
  intro x
  have hafter : ∀ skip, x ∈ spellingsAfter skip s →
      (∃ a, a < 0x80 ∧ x = ⟨Char.ofNat a.toNat, [a]⟩) ∨
        0x80 ≤ x.char.toNat ∧ ∀ b ∈ x.bytes, 0x80 ≤ b := by
    induction s with
    | nil => intro skip hx; cases skip <;> cases hx
    | cons a s ih =>
      intro skip hx
      cases skip with
      | succ skip => exact ih skip hx
      | zero =>
        rw [spellingsAfter, List.mem_cons] at hx
        rcases hx with rfl | hx
        · by_cases ha : a < 0x80
          · exact .inl ⟨a, ha, by simp [leading, ha]⟩
          · refine .inr ⟨le_toNat_leading ha s, List.forall_mem_cons.mpr
              ⟨UInt8.not_lt.mp ha, fun b hb => ?_⟩⟩
            have htail := isTail_of_mem_take_leading hb
            rw [isTail, Bool.and_eq_true, decide_eq_true_eq] at htail
            exact htail.1
        · exact ih _ hx
  exact hafter 0

/-- **Characters below 128 may be taken out of the bytes**, whatever the others spell. -/
theorem flatMap_bytes_kept (hkeep : ∀ c : Char, 0x80 ≤ c.toNat → keep c) (s : List UInt8) :
    (kept keep s).flatMap Spelling.bytes = s.filter fun b => keep (Char.ofNat b.toNat) := by
  have hspelling : ∀ x ∈ spellings s, x.bytes.filter (fun b => keep (Char.ofNat b.toNat)) =
      if keep x.char then x.bytes else [] := by
    intro x hx
    rcases of_mem_spellings x hx with ⟨a, -, rfl⟩ | ⟨hchar, hbytes⟩
    · rw [List.filter_cons, List.filter_nil]
    · rw [if_pos (hkeep x.char hchar), List.filter_eq_self]
      intro b hb
      refine hkeep _ ?_
      rw [toNat_char]
      exact UInt8.le_iff_toNat_le.mp (hbytes b hb)
  conv_rhs => rw [← flatMap_bytes_spellings s, List.filter_flatMap, List.flatMap_congr hspelling]
  rw [kept]
  induction spellings s with
  | nil => rfl
  | cons x xs ih =>
    rw [List.flatMap_cons, List.filter_cons, ← ih]
    split <;> rfl

/-- Characters below 128 may be taken out of the bytes instead of the text. -/
theorem decode_filter_bytes (hkeep : ∀ c : Char, 0x80 ≤ c.toNat → keep c) (s : String) :
    decode ((bytes s).filter fun b => keep (Char.ofNat b.toNat)) = s.toList.filter keep := by
  rw [← flatMap_bytes_kept hkeep, bytes_eq_encode, kept_encode, List.flatMap_map]
  exact decode_encode _

end TexTree.Utf8

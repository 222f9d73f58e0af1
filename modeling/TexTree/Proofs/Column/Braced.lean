/-
TexTree/Proofs/Column/Braced.lean

Groups in braces.  A text is balanced when no part at its start has more closing
braces than opening ones and the whole has equally many; a group is a balanced text
between two braces, and `braced` reads it to its end:

    braced ({ ++ w ++ } ++ rest)  =  the content w, and rest

Design.  Inside a group the reader knows only how many further groups are open.  So
the statement is about texts that close `depth` groups more than they open
(`Closes depth`): a brace changes the number by one, any other character leaves it
(`closes_open`, `closes_close`, `closes_other`), and everything about balanced texts
goes by induction with these three.

What is taken for a group where none is closed, or none stands, is said by `TakesGroup`,
which has one rule for each of the cases and agrees with `braced` on every text
(`takesGroup_iff`).
-/
import Mathlib.Data.List.Infix
import TexTree.Column.Braced
import TexTree.Proofs.Text.Cut

namespace TexTree

/-! ### Balanced texts -/

/-- Braces match: no part at the start has more closing braces than opening ones, and the
whole has equally many of both. -/
structure Balanced (cs : List Char) : Prop where
  opened : ∀ p, p <+: cs → p.count '\x7d' ≤ p.count '\x7b'
  closed : cs.count '\x7d' = cs.count '\x7b'

/-- The text closes `depth` groups that stand open in front of it, and all that it opens. -/
structure Closes (depth : Nat) (cs : List Char) : Prop where
  opened : ∀ p, p <+: cs → p.count '\x7d' ≤ depth + p.count '\x7b'
  closed : cs.count '\x7d' = depth + cs.count '\x7b'

theorem balanced_iff_closes {cs : List Char} : Balanced cs ↔ Closes 0 cs := by
  constructor
  · intro h
    exact ⟨fun p hp => by simpa using h.opened p hp, by simpa using h.closed⟩
  · intro h
    exact ⟨fun p hp => by simpa using h.opened p hp, by simpa using h.closed⟩

instance (cs : List Char) : Decidable (Balanced cs) :=
  decidable_of_iff ((∀ p ∈ cs.inits, p.count '\x7d' ≤ p.count '\x7b') ∧
      cs.count '\x7d' = cs.count '\x7b') <| by
    simp only [List.mem_inits]
    exact ⟨fun h => ⟨h.1, h.2⟩, fun h => ⟨h.opened, h.closed⟩⟩

/-! ### One character -/

section Closes

variable {depth : Nat} {cs : List Char}

theorem closes_nil : Closes depth [] ↔ depth = 0 := by
  constructor
  · intro h
    simpa using h.closed.symm
  · rintro rfl
    refine ⟨fun p hp => ?_, rfl⟩
    rw [List.prefix_nil.mp hp]
    exact Nat.le_refl _

/-- A character that counts as `a` closing and `b` opening braces counts so in the whole and
in every part at its start. -/
theorem closes_cons {c : Char} {a b : Nat}
    (ha : ∀ p : List Char, (c :: p).count '\x7d' = p.count '\x7d' + a)
    (hb : ∀ p : List Char, (c :: p).count '\x7b' = p.count '\x7b' + b) :
    Closes depth (c :: cs) ↔
      (∀ p, p <+: cs → p.count '\x7d' + a ≤ depth + (p.count '\x7b' + b)) ∧
        cs.count '\x7d' + a = depth + (cs.count '\x7b' + b) := by
  constructor
  · rintro ⟨hopened, hclosed⟩
    rw [ha, hb] at hclosed
    refine ⟨fun p hp => ?_, hclosed⟩
    rw [← ha, ← hb]
    exact hopened (c :: p) (List.cons_prefix_cons.mpr ⟨rfl, hp⟩)
  · rintro ⟨hopened, hclosed⟩
    refine ⟨fun p hp => ?_, by rwa [ha, hb]⟩
    rcases List.prefix_cons_iff.mp hp with rfl | ⟨q, rfl, hq⟩
    · exact Nat.zero_le _
    · rw [ha, hb]
      exact hopened q hq

/-- An opening brace opens one group more. -/
theorem closes_open : Closes depth ('\x7b' :: cs) ↔ Closes (depth + 1) cs := by
  rw [closes_cons (a := 0) (b := 1) (by simp) (by simp)]
  constructor
  · rintro ⟨hopened, hclosed⟩
    refine ⟨fun p hp => ?_, by omega⟩
    have := hopened p hp
    omega
  · rintro ⟨hopened, hclosed⟩
    refine ⟨fun p hp => ?_, by omega⟩
    have := hopened p hp
    omega

/-- A closing brace closes one of the groups that stand open. -/
theorem closes_close : Closes depth ('\x7d' :: cs) ↔ ∃ d, depth = d + 1 ∧ Closes d cs := by
  rw [closes_cons (a := 1) (b := 0) (by simp) (by simp)]
  constructor
  · rintro ⟨hopened, hclosed⟩
    -- the brace alone is a part at the start, so a group stands open
    have hone : 0 + 1 ≤ depth + (0 + 0) := hopened [] List.nil_prefix
    refine ⟨depth - 1, by omega, fun p hp => ?_, by omega⟩
    have := hopened p hp
    omega
  · rintro ⟨d, rfl, hopened, hclosed⟩
    refine ⟨fun p hp => ?_, by omega⟩
    have := hopened p hp
    omega

/-- Any other character leaves the groups as they are. -/
theorem closes_other {c : Char} (ho : c ≠ '\x7b') (hc : c ≠ '\x7d') :
    Closes depth (c :: cs) ↔ Closes depth cs := by
  rw [closes_cons (a := 0) (b := 0) (fun p => List.count_cons_of_ne hc)
    (fun p => List.count_cons_of_ne ho)]
  exact ⟨fun h => ⟨h.1, h.2⟩, fun h => ⟨h.opened, h.closed⟩⟩

end Closes

/-! ### Texts side by side -/

/-- A text that closes groups, behind one that closes others, closes all of them. -/
theorem Closes.append {d e : Nat} {s t : List Char} (hs : Closes d s) (ht : Closes e t) :
    Closes (d + e) (s ++ t) := by
  induction s generalizing d with
  | nil =>
    obtain rfl := closes_nil.mp hs
    rwa [Nat.zero_add, List.nil_append]
  | cons c s ih =>
    rw [List.cons_append]
    by_cases ho : c = '\x7b'
    · subst ho
      rw [closes_open, Nat.add_right_comm]
      exact ih (closes_open.mp hs)
    by_cases hc : c = '\x7d'
    · subst hc
      obtain ⟨d, rfl, htail⟩ := closes_close.mp hs
      exact closes_close.mpr ⟨d + e, Nat.add_right_comm d 1 e, ih htail⟩
    · rw [closes_other ho hc] at hs ⊢
      exact ih hs

/-- Characters other than braces do not count: they can be taken out of a text. -/
theorem closes_filter_iff {keep : Char → Bool} (ho : keep '\x7b') (hc : keep '\x7d') {d : Nat}
    {s : List Char} : Closes d (s.filter keep) ↔ Closes d s := by
  induction s generalizing d with
  | nil => exact Iff.rfl
  | cons c s ih =>
    by_cases hopen : c = '\x7b'
    · subst hopen
      rw [List.filter_cons_of_pos ho, closes_open, closes_open, ih]
    by_cases hclose : c = '\x7d'
    · subst hclose
      rw [List.filter_cons_of_pos hc, closes_close, closes_close]
      exact exists_congr fun d => and_congr_right fun _ => ih
    · rw [List.filter_cons, closes_other hopen hclose]
      split
      · rw [closes_other hopen hclose, ih]
      · exact ih

theorem balanced_filter_iff {keep : Char → Bool} (ho : keep '\x7b') (hc : keep '\x7d')
    {s : List Char} : Balanced (s.filter keep) ↔ Balanced s := by
  rw [balanced_iff_closes, balanced_iff_closes, closes_filter_iff ho hc]

/-- A character in front of a balanced text, when it is no brace. -/
theorem balanced_cons {c : Char} (hc : c ≠ '\x7b' ∧ c ≠ '\x7d') {cs : List Char}
    (h : Balanced cs) : Balanced (c :: cs) :=
  balanced_iff_closes.mpr ((closes_other hc.1 hc.2).mpr (balanced_iff_closes.mp h))

/-- The text as a group. -/
def grouped (cs : List Char) : List Char := '\x7b' :: (cs ++ ['\x7d'])

theorem grouped_append (cs rest : List Char) :
    grouped cs ++ rest = '\x7b' :: (cs ++ '\x7d' :: rest) := by
  rw [grouped, List.cons_append, List.append_assoc, List.singleton_append]

theorem length_grouped (cs : List Char) : (grouped cs).length = cs.length + 2 := by
  rw [grouped, List.length_cons, List.length_append, List.length_singleton]

namespace Balanced

theorem nil : Balanced [] := balanced_iff_closes.mpr (closes_nil.mpr rfl)

theorem append {s t : List Char} (hs : Balanced s) (ht : Balanced t) : Balanced (s ++ t) :=
  balanced_iff_closes.mpr ((balanced_iff_closes.mp hs).append (balanced_iff_closes.mp ht))

theorem grouped {s : List Char} (hs : Balanced s) : Balanced (grouped s) := by
  rw [balanced_iff_closes, TexTree.grouped, closes_open]
  exact (balanced_iff_closes.mp hs).append (closes_close.mpr ⟨0, rfl, closes_nil.mpr rfl⟩)

theorem flatten {ss : List (List Char)} (h : ∀ s ∈ ss, Balanced s) : Balanced ss.flatten := by
  induction ss with
  | nil => exact nil
  | cons s ss ih =>
    obtain ⟨hs, hss⟩ := List.forall_mem_cons.mp h
    exact hs.append (ih hss)

/-- A text without braces is balanced. -/
theorem of_forall_ne {s : List Char} (h : ∀ c ∈ s, c ≠ '\x7b' ∧ c ≠ '\x7d') : Balanced s := by
  rw [balanced_iff_closes]
  induction s with
  | nil => exact closes_nil.mpr rfl
  | cons c s ih =>
    obtain ⟨hc, hs⟩ := List.forall_mem_cons.mp h
    exact (closes_other hc.1 hc.2).mpr (ih hs)

end Balanced

/-! ### Reading a group -/

theorem closing_open (depth : Nat) (seen cs : List Char) :
    closing depth seen ('\x7b' :: cs) = closing (depth + 1) ('\x7b' :: seen) cs := by
  rw [closing.eq_def]
  rfl

theorem closing_other {c : Char} (ho : c ≠ '\x7b') (hc : c ≠ '\x7d') (depth : Nat)
    (seen cs : List Char) : closing depth seen (c :: cs) = closing depth (c :: seen) cs := by
  rw [closing.eq_def]
  dsimp only
  rw [if_neg ho, if_neg hc]

/-- A character that has been seen is the last one in front of what is still to be read. -/
theorem reverse_append_cons (c : Char) (seen cs : List Char) :
    seen.reverse ++ c :: cs = (c :: seen).reverse ++ cs := by
  rw [List.reverse_cons, List.append_assoc, List.singleton_append]

/-- **The reader finds the brace that closes the groups around it**, behind any text that
closes those inside. -/
theorem closing_append {depth : Nat} {w : List Char} (hw : Closes depth w) (seen rest : List Char) :
    closing depth seen (w ++ '\x7d' :: rest) = ⟨seen.reverse ++ w, rest, true⟩ := by
  induction w generalizing depth seen with
  | nil =>
    obtain rfl := closes_nil.mp hw
    rw [List.nil_append, closing, if_neg (by decide), if_pos rfl, List.append_nil]
  | cons c w ih =>
    rw [List.cons_append, reverse_append_cons]
    by_cases ho : c = '\x7b'
    · subst ho
      rw [closing_open]
      exact ih (closes_open.mp hw) _
    by_cases hc : c = '\x7d'
    · subst hc
      obtain ⟨d, rfl, htail⟩ := closes_close.mp hw
      rw [closing, if_neg ho, if_pos rfl]
      exact ih htail _
    · rw [closing_other ho hc]
      exact ih ((closes_other ho hc).mp hw) _

/-- **A group is read whole.** -/
theorem braced_grouped {w : List Char} (hw : Balanced w) (rest : List Char) :
    braced (grouped w ++ rest) = ⟨w, rest, true⟩ := by
  rw [grouped_append, braced, if_pos rfl, closing_append (balanced_iff_closes.mp hw)]
  rfl

/-- Where no group stands, none is read. -/
theorem braced_of_stops {cs : List Char} (h : Stops (· == '\x7b') cs) :
    braced cs = ⟨[], cs, false⟩ := by
  cases cs with
  | nil => rfl
  | cons c cs => rw [braced, if_neg (by simpa using stops_cons.mp h)]

/-! ### What is taken for a group -/

/-- A text, what is taken for the group at its start, and what is left behind it. -/
inductive TakesGroup : List Char → List Char → List Char → Prop
  /-- A group that is closed. -/
  | closed {w : List Char} (rest : List Char) (hw : Balanced w) :
      TakesGroup (grouped w ++ rest) w rest
  /-- A group that is not closed goes on to the end. -/
  | unclosed {cs : List Char} (h : ∀ w rest, cs = w ++ '\x7d' :: rest → ¬Balanced w) :
      TakesGroup ('\x7b' :: cs) cs []
  /-- Where no group stands nothing is taken. -/
  | absent {cs : List Char} (h : Stops (· == '\x7b') cs) : TakesGroup cs [] cs

/-- The reader finds a brace that closes the groups around it, or it comes to the end. -/
theorem closing_cases (depth : Nat) (seen cs : List Char) :
    (∃ w rest, Closes depth w ∧ cs = w ++ '\x7d' :: rest) ∨
      closing depth seen cs = ⟨seen.reverse ++ cs, [], false⟩ := by
  induction cs generalizing depth seen with
  | nil => exact .inr (by rw [closing, List.append_nil])
  | cons c cs ih =>
    rw [reverse_append_cons]
    by_cases ho : c = '\x7b'
    · subst ho
      rw [closing_open]
      refine (ih (depth + 1) _).imp_left ?_
      rintro ⟨w, rest, hw, rfl⟩
      exact ⟨'\x7b' :: w, rest, closes_open.mpr hw, rfl⟩
    by_cases hc : c = '\x7d'
    · subst hc
      cases depth with
      | zero => exact .inl ⟨[], cs, closes_nil.mpr rfl, rfl⟩
      | succ depth =>
        rw [closing, if_neg ho, if_pos rfl]
        refine (ih depth _).imp_left ?_
        rintro ⟨w, rest, hw, rfl⟩
        exact ⟨'\x7d' :: w, rest, closes_close.mpr ⟨depth, rfl, hw⟩, rfl⟩
    · rw [closing_other ho hc]
      refine (ih depth _).imp_left ?_
      rintro ⟨w, rest, hw, rfl⟩
      exact ⟨c :: w, rest, (closes_other ho hc).mpr hw, rfl⟩

/-- A group that is not closed is read to the end of the text. -/
theorem braced_unclosed {cs : List Char} (h : ∀ w rest, cs = w ++ '\x7d' :: rest → ¬Balanced w) :
    braced ('\x7b' :: cs) = ⟨cs, [], false⟩ := by
  rw [braced, if_pos rfl]
  rcases closing_cases 0 [] cs with ⟨w, rest, hw, hcs⟩ | hend
  · exact absurd (balanced_iff_closes.mpr hw) (h w rest hcs)
  · exact hend

/-- Something is taken for the group at the start of every text. -/
theorem exists_takesGroup (cs : List Char) : ∃ w rest, TakesGroup cs w rest := by
  by_cases hstops : Stops (· == '\x7b') cs
  · exact ⟨[], cs, .absent hstops⟩
  cases cs with
  | nil => exact absurd stops_nil hstops
  | cons c cs =>
    obtain rfl : c = '\x7b' := by simpa using hstops
    by_cases hclosed : ∃ w rest, cs = w ++ '\x7d' :: rest ∧ Balanced w
    · obtain ⟨w, rest, rfl, hw⟩ := hclosed
      rw [← grouped_append]
      exact ⟨w, rest, .closed rest hw⟩
    · exact ⟨cs, [], .unclosed fun w rest hcs hw => hclosed ⟨w, rest, hcs, hw⟩⟩

theorem TakesGroup.braced_eq {cs w rest : List Char} (h : TakesGroup cs w rest) :
    (braced cs).content = w ∧ (braced cs).rest = rest := by
  cases h with
  | closed _ hw =>
    rw [braced_grouped hw]
    exact ⟨rfl, rfl⟩
  | unclosed h =>
    rw [braced_unclosed h]
    exact ⟨rfl, rfl⟩
  | absent h =>
    rw [braced_of_stops h]
    exact ⟨rfl, rfl⟩

/-- **The reader takes what is taken for a group**, on every text. -/
theorem takesGroup_iff {cs w rest : List Char} :
    TakesGroup cs w rest ↔ (braced cs).content = w ∧ (braced cs).rest = rest := by
  constructor
  · exact TakesGroup.braced_eq
  · rintro ⟨rfl, rfl⟩
    obtain ⟨w, rest, h⟩ := exists_takesGroup cs
    obtain ⟨hw, hrest⟩ := h.braced_eq
    rwa [hw, hrest]

/-- What is taken and what is left stand in the text one behind the other. -/
theorem TakesGroup.sublist {cs w rest : List Char} (h : TakesGroup cs w rest) :
    (w ++ rest).Sublist cs := by
  cases h with
  | closed _ hw =>
    rw [grouped_append]
    exact ((List.Sublist.refl w).append (List.sublist_cons_self _ rest)).cons _
  | unclosed h =>
    rw [List.append_nil]
    exact List.sublist_cons_self _ _
  | absent h => exact List.Sublist.refl _

/-- What is left is the end of the text. -/
theorem TakesGroup.suffix {cs w rest : List Char} (h : TakesGroup cs w rest) : rest <:+ cs := by
  cases h with
  | closed _ hw => exact List.suffix_append _ _
  | unclosed h => exact List.nil_suffix
  | absent h => exact List.suffix_refl _

theorem TakesGroup.length_le {cs w rest : List Char} (h : TakesGroup cs w rest) :
    w.length ≤ cs.length :=
  ((List.sublist_append_left w rest).trans h.sublist).length_le

theorem TakesGroup.length_rest_le {cs w rest : List Char} (h : TakesGroup cs w rest) :
    rest.length ≤ cs.length :=
  ((List.sublist_append_right w rest).trans h.sublist).length_le

end TexTree

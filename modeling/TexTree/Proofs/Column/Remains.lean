/-
TexTree/Proofs/Column/Remains.lean

What remains of the bytes of a preamble.  Blanks count nowhere in a preamble, so of its source
only that counts which remains when they are taken out:

    remains s            the bytes without the blanks
    core s               what remains of the bytes when they have been trimmed

Spaces that are put into a source change nothing about what remains (`Spaced.remains_eq`).
Nor do they where it is trimmed first, if no character of white space is taken apart
(`Spaced.core_eq`).

Design.  Trimming looks at characters, and at more of them than the blanks that are taken out;
but it gives the same when the blanks are taken out before (`core_eq`).  A space may stand
inside a character, whose bytes are then lost, each on its own.  If the character is no white
space, neither it nor any of its bytes is trimmed away, so what stands on their two sides is
trimmed alike (`core_space`).  And what stands between two backslashes is not reached by
trimming from outside (`exists_core_between`).
-/
import TexTree.Proofs.Column.Preamble

namespace TexTree.Preamble

open Utf8 (Starts Spelling kept)

/-! ### What remains of a source -/

/-- Only blanks are taken out of a preamble. -/
theorem isBlank_of_not_solid (c : Char) (h : solid c = false) : isBlank c := by
  rw [solid, decide_eq_false_iff_not, not_not] at h
  simp only [List.mem_cons, List.not_mem_nil, or_false] at h
  rcases h with rfl | rfl | rfl | rfl <;> decide

/-- What remains of bytes when the blanks of a preamble are taken out. -/
def remains (s : List UInt8) : List UInt8 := s.filter fun b => solid (Char.ofNat b.toNat)

theorem columnsOfBytes_eq (s : List UInt8) :
    columnsOfBytes s = layout (marks (Utf8.decode (remains s))) := by
  rw [columnsOfBytes, List.filter_congr fun b _ => isPreambleBlank_eq _, remains]

theorem remains_append (s t : List UInt8) : remains (s ++ t) = remains s ++ remains t :=
  List.filter_append s t

theorem remains_eq (s : List UInt8) : remains s = (kept solid s).flatMap Spelling.bytes :=
  (Utf8.flatMap_bytes_kept (fun _ => solid_of_le) s).symm

/-! ### Where it is trimmed -/

/-- What remains of bytes that are trimmed. -/
def core (s : List UInt8) : List UInt8 := remains (Utf8.trim s)

theorem core_eq (s : List UInt8) :
    core s = (trimBy (fun x : Spelling => isBlank x.char) (kept solid s)).flatMap
      Spelling.bytes := by
  rw [core, remains_eq, Utf8.kept_trim isBlank_of_not_solid]

/-- What stands between two backslashes is not trimmed from outside. -/
theorem exists_core_between (p q : List UInt8) :
    ∃ left right, ∀ s, core (p ++ (Utf8.encode ['\\'] ++ (s ++ (Utf8.encode ['\\'] ++ q)))) =
      left ++ remains s ++ right := by
  have hbackslash : kept solid (Utf8.encode ['\\']) = [⟨'\\', [0x5c]⟩] := by decide
  obtain ⟨left, right, h⟩ := exists_trimBy_around (fun x : Spelling => isBlank x.char)
    (kept solid p) (kept solid q)
  refine ⟨left.flatMap Spelling.bytes ++ [0x5c], [0x5c] ++ right.flatMap Spelling.bytes,
    fun s => ?_⟩
  have hwhole := h ([⟨'\\', [0x5c]⟩] ++ kept solid s ++ [⟨'\\', [0x5c]⟩])
    ⟨_, rfl, by decide⟩ ⟨_, List.getLast?_concat, by decide⟩
  rw [core_eq, Utf8.kept_between p (by decide), Utf8.kept_between s (by decide), hbackslash,
    remains_eq]
  simp only [List.append_assoc] at hwhole ⊢
  rw [hwhole]
  simp only [List.flatMap_append, List.flatMap_singleton]

/-! ### Spaces put in -/

/-- How many characters of white space there are, without the blanks of a preamble. -/
def whites (s : List UInt8) : Nat := (Utf8.decode s).countP fun c => isBlank c && solid c

/-- **A space changes nothing where no character of white space lies across it.** -/
theorem core_space {s t : List UInt8} (h : whites (s ++ t) = whites s + whites t) :
    core (s ++ t) = core (s ++ (Utf8.encode [' '] ++ t)) := by
  have hspace : kept solid (Utf8.encode [' ']) = [] := by decide
  have happart : Utf8.NoneAcross (fun c => isBlank c && solid c) s t := h
  rw [core_eq, core_eq, Utf8.kept_between s (by decide), hspace, List.nil_append]
  cases Utf8.sideBySide s t with
  | apart hst => rw [kept, hst, List.filter_append, kept, kept]
  | across front x left right behind hst hs ht hx hleft =>
    have hsolid : solid x.char = true := solid_of_le hx.1
    have hblank : isBlank x.char = false := by
      simpa [hsolid] using happart.eq_false (by decide) hst hs ht
    obtain ⟨l, r, htrim⟩ := exists_trimBy_around (fun y : Spelling => isBlank y.char)
      (front.filter fun y => solid y.char) (behind.filter fun y => solid y.char)
    -- neither the character nor its bytes are trimmed away
    have hwhole := htrim [x] ⟨x, rfl, hblank⟩ ⟨x, rfl, hblank⟩
    have hne : (left ++ right).map Utf8.lost ≠ [] := by simp [hleft]
    have hlost : ∀ y ∈ (left ++ right).map Utf8.lost, isBlank y.char = false := by
      intro y hy
      obtain ⟨b, -, rfl⟩ := List.mem_map.mp hy
      exact (by decide : isBlank Utf8.replacement = false)
    have hbytes := htrim _ ⟨_, List.head?_eq_some_head hne, hlost _ (List.head_mem hne)⟩
      ⟨_, List.getLast?_eq_some_getLast hne, hlost _ (List.getLast_mem hne)⟩
    rw [kept, kept, kept, hst, hs, ht, List.filter_append, List.filter_append, List.filter_append,
      List.filter_cons_of_pos (p := fun y : Spelling => solid y.char) hsolid,
      Utf8.filter_lost (by decide), Utf8.filter_lost (by decide)]
    rw [List.map_append] at hbytes
    simp only [List.append_assoc, List.singleton_append] at hwhole hbytes ⊢
    rw [hwhole, hbytes]
    simp only [List.flatMap_append, List.flatMap_cons, Utf8.flatMap_bytes_lost, hx.2,
      List.append_assoc]

/-- With a space between, white space on its two sides is white space on its own. -/
theorem whites_space (s t : List UInt8) :
    whites (s ++ (Utf8.encode [' '] ++ t)) = whites s + whites t := by
  have hspace : Utf8.decode (Utf8.encode [' '] ++ t) = ' ' :: Utf8.decode t :=
    Utf8.decode_encode_append [' '] t
  have hblank : (isBlank ' ' && solid ' ') = false := by decide
  rw [whites, Utf8.decode_append s (Utf8.starts_encode_append (by decide) t), hspace,
    List.countP_append, List.countP_cons_of_neg (by simp [hblank]), whites, whites]

theorem whites_append_le (s t : List UInt8) : whites s + whites t ≤ whites (s ++ t) :=
  Utf8.countP_decode_append_le (by decide) s t

/-- The second source is the first with spaces put in. -/
inductive Spaced : List UInt8 → List UInt8 → Prop
  | pieces (p : List UInt8) (contents : List (List UInt8)) (q : List UInt8) :
      Spaced (p ++ (contents.flatten ++ q))
        (p ++ ((contents.flatMap fun piece => Utf8.encode [' '] ++ piece) ++ q))

namespace Spaced

variable {s t : List UInt8}

theorem remains_eq (h : Spaced s t) : remains s = remains t := by
  have hspace : remains (Utf8.encode [' ']) = [] := by decide
  obtain ⟨p, contents, q⟩ := h
  have hcontents : remains contents.flatten =
      remains (contents.flatMap fun piece => Utf8.encode [' '] ++ piece) := by
    induction contents with
    | nil => rfl
    | cons piece contents ih =>
      rw [List.flatten_cons, List.flatMap_cons, remains_append, remains_append, remains_append,
        hspace, List.nil_append, ih]
  simp only [remains_append, hcontents]

/-- Each space can only take characters of white space away, so if as many are left, none of the
spaces does. -/
theorem core_pieces (p : List UInt8) (contents : List (List UInt8)) (q : List UInt8) :
    whites (p ++ ((contents.flatMap fun piece => Utf8.encode [' '] ++ piece) ++ q)) ≤
        whites (p ++ (contents.flatten ++ q)) ∧
      (whites (p ++ (contents.flatten ++ q)) =
          whites (p ++ ((contents.flatMap fun piece => Utf8.encode [' '] ++ piece) ++ q)) →
        core (p ++ (contents.flatten ++ q)) =
          core (p ++ ((contents.flatMap fun piece => Utf8.encode [' '] ++ piece) ++ q))) := by
  induction contents generalizing p with
  | nil => exact ⟨Nat.le_refl _, fun _ => rfl⟩
  | cons piece contents ih =>
    obtain ⟨hle, hcore⟩ := ih (p ++ Utf8.encode [' '] ++ piece)
    -- the first space on its own, with the others still to be put in
    have hfirst := whites_space p (piece ++ (contents.flatten ++ q))
    have hjoined := whites_append_le p (piece ++ (contents.flatten ++ q))
    simp only [List.flatten_cons, List.flatMap_cons, List.append_assoc] at hle hcore ⊢
    refine ⟨by omega, fun heq => ?_⟩
    rw [core_space (by omega), hcore (by omega)]

/-- **Spaces that leave as many characters of white space change nothing.** -/
theorem core_eq (h : Spaced s t) (hwhites : whites s = whites t) : core s = core t := by
  obtain ⟨p, contents, q⟩ := h
  exact (core_pieces p contents q).2 hwhites

end Spaced

/-! ### Surroundings -/

/-- The same remains of the bytes, whatever they stand between when they are trimmed, if only
what stands behind them does not go on with a character. -/
def Alike (s t : List UInt8) : Prop :=
  ∀ p q, Starts q → core (p ++ s ++ q) = core (p ++ t ++ q)

namespace Alike

variable {s t : List UInt8}

theorem core_eq (h : Alike s t) : core s = core t := by
  have hnone := h [] [] .nil
  rwa [List.nil_append, List.nil_append, List.append_nil, List.append_nil] at hnone

/-- Between two backslashes nothing is trimmed. -/
theorem remains_eq (h : Alike s t) : remains s = remains t := by
  obtain ⟨left, right, hcore⟩ := exists_core_between [] []
  have hbackslashes := h (Utf8.encode ['\\']) (Utf8.encode ['\\']) (Utf8.starts_encode _)
  have hs := hcore s
  have ht := hcore t
  rw [List.nil_append, List.append_nil, ← List.append_assoc] at hs ht
  rw [hs, ht] at hbackslashes
  exact List.append_cancel_left (List.append_cancel_right hbackslashes)

/-- Between the backslashes of a begin and an end it is enough that the same remains. -/
theorem between (h : remains s = remains t) (q : List UInt8) :
    Alike (Utf8.encode ['\\'] ++ (s ++ (Utf8.encode ['\\'] ++ q)))
      (Utf8.encode ['\\'] ++ (t ++ (Utf8.encode ['\\'] ++ q))) := by
  intro p' q' _
  obtain ⟨left, right, hcore⟩ := exists_core_between p' (q ++ q')
  have hs := hcore s
  have ht := hcore t
  simp only [List.append_assoc] at hs ht ⊢
  rw [hs, ht, h]

end Alike

end TexTree.Preamble

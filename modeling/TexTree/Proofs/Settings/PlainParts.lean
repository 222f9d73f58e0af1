/-
TexTree/Proofs/Settings/PlainParts.lean

Settings without quotes.  Only a quoted value can hold a comma, so where no quote
stands every comma ends a part, and the text may be cut at its commas before any of it
is looked at:

    assignments? cs  =  the entry of each piece of cs between commas, in their order

Main result: `parse?` gives the settings of these entries (`parse?_eq_pieces`), for any
bytes in which neither quote occurs.  What one piece gives is said by `entryOfPiece?`, which
knows no commas and never fails.

Design.  The scanner goes over the text once and cuts nothing; each of its stages stops at
a comma of its own accord.  On a piece, which has none, these stops are idle, and the
stages are those of `entryOfPiece?` (`exists_part?_eq`).  The rest is what a comma does
between two texts (`assignments?_append_comma`), carried from piece to piece.
-/
import Mathlib.Data.List.Basic
import TexTree.Proofs.Settings.OpenQuotes

namespace TexTree

namespace Settings

/-! ### The entry of a piece -/

/-- A character of a key in a piece without commas. -/
def isPlainKeyChar (c : Char) : Bool := !(c == '=' || isBlank c)

/-- The key and the value of a piece: a key, an equals sign and a value, with blanks in
front of each of them.  The value ends at the first blank.  Without a key or an equals
sign there is no entry. -/
def entryOfPiece? (piece : List Char) : Option (String × String) :=
  let start := piece.dropWhile isBlank
  let key := start.takeWhile isPlainKeyChar
  let behind := (start.dropWhile isPlainKeyChar).dropWhile isBlank
  if key = [] ∨ behind.head? ≠ some '=' then none
  else
    let value := (behind.tail.dropWhile isBlank).takeWhile fun c => !isBlank c
    some (String.ofList (lowerAll key), String.ofList value)

/-- Neither of the two quotes occurs in the text. -/
def QuoteFree (cs : List Char) : Prop := '"' ∉ cs ∧ '\'' ∉ cs

theorem QuoteFree.of_subset {cs ds : List Char} (h : QuoteFree cs) (hsub : ds ⊆ cs) :
    QuoteFree ds :=
  ⟨fun hd => h.1 (hsub hd), fun hd => h.2 (hsub hd)⟩

/-- Quotes come from their bytes. -/
theorem QuoteFree.decode {raw : List UInt8} (hdouble : '"'.toUInt8 ∉ raw)
    (hsingle : '\''.toUInt8 ∉ raw) : QuoteFree (Utf8.decode raw) :=
  ⟨fun h => hdouble (Utf8.mem_of_mem_decode (by decide) h),
    fun h => hsingle (Utf8.mem_of_mem_decode (by decide) h)⟩

/-- A value that does not start with a quote ends at a comma or a blank. -/
theorem value?_of_quoteFree {cs : List Char} (h : QuoteFree cs) :
    value? cs = some (cs.takeWhile isValueChar, cs.dropWhile isValueChar) := by
  cases cs with
  | nil => rfl
  | cons c cs =>
    have hc : ¬(c = '"' ∨ c = '\'') := by
      rintro (rfl | rfl)
      · exact h.1 List.mem_cons_self
      · exact h.2 List.mem_cons_self
    rw [value?, if_neg hc]

theorem isKeyChar_eq_of_ne {c : Char} (h : c ≠ ',') : isKeyChar c = isPlainKeyChar c := by
  rw [isKeyChar, isPlainKeyChar, beq_eq_false_iff_ne.mpr h, Bool.or_false]

theorem isValueChar_eq_of_ne {c : Char} (h : c ≠ ',') : isValueChar c = !isBlank c := by
  rw [isValueChar, beq_eq_false_iff_ne.mpr h, Bool.false_or]

/-- **A piece without commas and quotes is read as its entry.** -/
theorem exists_part?_eq {cs : List Char} (hcomma : ',' ∉ cs) (hquote : QuoteFree cs) :
    ∃ rest, part? cs = some (entryOfPiece? cs, rest) := by
  have hne : ∀ {ds : List Char}, ds ⊆ cs → ∀ c ∈ ds, c ≠ ',' := by
    rintro ds hsub c hc rfl
    exact hcomma (hsub hc)
  have hstart : cs.dropWhile isBlank ⊆ cs := List.dropWhile_subset _
  have htake : (cs.dropWhile isBlank).takeWhile isKeyChar =
      (cs.dropWhile isBlank).takeWhile isPlainKeyChar :=
    takeWhile_congr fun c hc => isKeyChar_eq_of_ne (hne hstart c hc)
  have hdrop : (cs.dropWhile isBlank).dropWhile isKeyChar =
      (cs.dropWhile isBlank).dropWhile isPlainKeyChar :=
    dropWhile_congr fun c hc => isKeyChar_eq_of_ne (hne hstart c hc)
  have hbehind : ((cs.dropWhile isBlank).dropWhile isPlainKeyChar).dropWhile isBlank ⊆ cs :=
    List.Subset.trans (List.dropWhile_subset _) (List.Subset.trans (List.dropWhile_subset _) hstart)
  rw [part?, entryOfPiece?, htake, hdrop]
  generalize (cs.dropWhile isBlank).takeWhile isPlainKeyChar = key
  generalize ((cs.dropWhile isBlank).dropWhile isPlainKeyChar).dropWhile isBlank = behind
    at hbehind ⊢
  dsimp only
  split
  · next k ks rest =>
    have hrest : rest.dropWhile isBlank ⊆ cs :=
      List.Subset.trans (List.dropWhile_subset _)
        (List.Subset.trans (List.subset_cons_self _ _) hbehind)
    have hvalue : (rest.dropWhile isBlank).takeWhile isValueChar =
        (rest.dropWhile isBlank).takeWhile fun c => !isBlank c :=
      takeWhile_congr fun c hc => isValueChar_eq_of_ne (hne hrest c hc)
    refine ⟨(rest.dropWhile isBlank).dropWhile isValueChar, ?_⟩
    rw [value?_of_quoteFree (hquote.of_subset hrest), Option.map_some, hvalue, if_neg (by simp)]
    rfl
  · next hnone =>
    have hignored : key = [] ∨ behind.head? ≠ some '=' := by
      by_contra hboth
      rw [not_or, not_not] at hboth
      obtain ⟨k, ks, hkey⟩ := List.exists_cons_of_ne_nil hboth.1
      obtain ⟨rest, hequals⟩ := List.head?_eq_some_iff.mp hboth.2
      exact hnone k ks rest hkey hequals
    exact ⟨behind, by rw [if_pos hignored]⟩

/-! ### From piece to piece -/

theorem assignments?_of_piece {cs : List Char} (hcomma : ',' ∉ cs) (hquote : QuoteFree cs) :
    assignments? cs = some (entryOfPiece? cs).toList := by
  obtain ⟨rest, hpart⟩ := exists_part?_eq hcomma hquote
  have hrest : ∀ c ∈ rest, c ≠ ',' := by
    rintro c hc rfl
    exact hcomma ((suffix_of_part? hpart).subset hc)
  rw [assignments?_of_part? hpart, nextPart_of_forall_ne hrest, assignments?_nil,
    Option.map_some, List.append_nil]

/-- **Without quotes the assignments are the entries of the pieces between commas.** -/
theorem assignments?_eq_pieces {cs : List Char} (h : QuoteFree cs) :
    assignments? cs = some ((cs.splitOn ',').filterMap entryOfPiece?) := by
  rw [List.filterMap_eq_flatMap_toList]
  induction cs using inductionOnPieces (c := ',') with
  | last s hs =>
    rw [List.splitOn_eq_singleton hs, List.flatMap_singleton]
    exact assignments?_of_piece hs h
  | front s t hs ih =>
    have hfront := assignments?_of_piece hs (h.of_subset (List.subset_append_left s _))
    have ht : t ⊆ s ++ ',' :: t :=
      List.Subset.trans (List.subset_cons_self ',' t) (List.subset_append_right s _)
    rw [List.splitOn_append_cons_self_of_not_mem hs, List.flatMap_cons,
      assignments?_append_comma hfront, ih (h.of_subset ht), Option.map_some]

/-! ### Texts as bytes -/

/-- **Settings without quotes are read piece by piece.**  Where neither quote occurs, reading
succeeds; the settings are those of the entries of the pieces between commas, a later one in
place of an earlier one with the same key.  Texts are bytes, and need not be well-formed; they
are cut at the commas before they are decoded. -/
theorem parse?_eq_pieces (raw : List UInt8) (hdouble : '"'.toUInt8 ∉ raw)
    (hsingle : '\''.toUInt8 ∉ raw) :
    parse? (Utf8.decode raw) =
      .ok (ofList ((raw.splitOn ','.toUInt8).filterMap fun piece =>
        entryOfPiece? (Utf8.decode piece))) := by
  have hpieces : (Utf8.decode raw).splitOn ',' = (raw.splitOn ','.toUInt8).map Utf8.decode :=
    Utf8.decode_splitOn (by decide) raw
  refine parse?_eq_ok_iff.mpr ⟨_, assignments?_eq_pieces (.decode hdouble hsingle), ?_⟩
  rw [hpieces, List.filterMap_map]
  rfl

/-- A part without an equals sign or without a key is passed over, what stands behind a value
is not looked at, and a key that is set again has its last value. -/
theorem parse?_pieces_width :
    '"'.toUInt8 ∉ Utf8.bytes "width=1,draft, =x, WIDTH = 3cm wide,h=," ∧
    '\''.toUInt8 ∉ Utf8.bytes "width=1,draft, =x, WIDTH = 3cm wide,h=," ∧
    parse? (Utf8.decode (Utf8.bytes "width=1,draft, =x, WIDTH = 3cm wide,h=,")) =
      .ok (ofList [("h", ""), ("width", "3cm")]) := by
  have hdouble : '"'.toUInt8 ∉ Utf8.bytes "width=1,draft, =x, WIDTH = 3cm wide,h=," := by
    decide +kernel
  have hsingle : '\''.toUInt8 ∉ Utf8.bytes "width=1,draft, =x, WIDTH = 3cm wide,h=," := by
    decide +kernel
  refine ⟨hdouble, hsingle, (parse?_eq_pieces _ hdouble hsingle).trans ?_⟩
  decide +kernel

end Settings

end TexTree

/-
TexTree/Proofs/Settings/Respacing.lean

How wide the blanks of settings are does not count.  An optional argument holds its
settings as texts, one for each word, and is written with one space between two of them:

    settings of the argument  =  settings of the text that the words are from

(`ofNodes?_words`), for any text without quotes, wherever its blanks stand and whichever
they are.

Design.  The words with spaces between them are the text with its blanks collapsed
(`intercalate_splitWords`).  Each stage of the scanner cuts by a class that has all blanks or
none, so on a collapsed text it takes what it takes from the text and leaves the rest,
collapsed (`part?_collapse`, `nextPart_collapse`).  That is not so of a quoted value, in
which blanks count; without quotes there is none.
-/
import TexTree.Proofs.Settings.PlainParts
import TexTree.Proofs.Source.Spacing
import TexTree.Proofs.Text.Words

namespace TexTree

namespace Settings

/-! ### Classes and blanks -/

theorem isValueChar_of_isBlank {c : Char} (h : isBlank c) : isValueChar c = false := by
  rw [isValueChar, h, Bool.or_true, Bool.not_true]

theorem ne_comma_of_isBlank {c : Char} (h : isBlank c) : (c != ',') = true := by
  rw [bne_iff_ne]
  rintro rfl
  exact absurd h (by decide)

theorem dropWhile_isBlank_collapse (s : List Char) :
    (collapse s).dropWhile isBlank = collapse (s.dropWhile isBlank) :=
  dropWhile_collapse (fun _ h => h) s

theorem takeWhile_isKeyChar_collapse (s : List Char) :
    (collapse s).takeWhile isKeyChar = s.takeWhile isKeyChar :=
  takeWhile_collapse (fun _ => not_isKeyChar_of_isBlank) s

theorem dropWhile_isKeyChar_collapse (s : List Char) :
    (collapse s).dropWhile isKeyChar = collapse (s.dropWhile isKeyChar) :=
  dropWhile_collapse (fun _ => not_isKeyChar_of_isBlank) s

theorem QuoteFree.collapse {cs : List Char} (h : QuoteFree cs) : QuoteFree (collapse cs) := by
  constructor
  · intro hd
    exact h.1 ((mem_of_mem_collapse hd).resolve_right (by decide))
  · intro hs
    exact h.2 ((mem_of_mem_collapse hs).resolve_right (by decide))

/-! ### One part -/

/-- A value without quotes ends at a blank. -/
theorem value?_collapse {cs : List Char} (h : QuoteFree cs) :
    value? (collapse cs) = (value? cs).map fun (v, rest) => (v, collapse rest) := by
  rw [value?_of_quoteFree h, value?_of_quoteFree h.collapse,
    takeWhile_collapse (fun _ => isValueChar_of_isBlank),
    dropWhile_collapse (fun _ => isValueChar_of_isBlank)]
  rfl

/-- **A part is read from a collapsed text as from the text.** -/
theorem part?_collapse {cs : List Char} (h : QuoteFree cs) :
    part? (collapse cs) = (part? cs).map fun (e, rest) => (e, collapse rest) := by
  have hbehind : ((cs.dropWhile isBlank).dropWhile isKeyChar).dropWhile isBlank ⊆ cs :=
    List.Subset.trans (List.dropWhile_subset _)
      (List.Subset.trans (List.dropWhile_subset _) (List.dropWhile_subset _))
  have hhead := List.head?_dropWhile_not isBlank ((cs.dropWhile isBlank).dropWhile isKeyChar)
  rw [part?, part?]
  simp only [dropWhile_isBlank_collapse, takeWhile_isKeyChar_collapse,
    dropWhile_isKeyChar_collapse]
  generalize (cs.dropWhile isBlank).takeWhile isKeyChar = key
  generalize ((cs.dropWhile isBlank).dropWhile isKeyChar).dropWhile isBlank = behind
    at hbehind hhead ⊢
  -- the first character behind the key is no blank, so it is the same in both texts
  cases behind with
  | nil => cases key <;> rfl
  | cons c rest =>
    have hc : isBlank c = false := by simpa using hhead
    rw [collapse_cons_of_not_isBlank hc]
    cases key with
    | nil =>
      show some (none, c :: collapse rest) = some (none, collapse (c :: rest))
      rw [collapse_cons_of_not_isBlank hc]
    | cons k ks =>
      by_cases hequals : c = '='
      · subst hequals
        have hrest : QuoteFree (rest.dropWhile isBlank) :=
          h.of_subset (List.Subset.trans (List.dropWhile_subset _)
            (List.Subset.trans (List.subset_cons_self _ _) hbehind))
        simp only [dropWhile_isBlank_collapse, value?_collapse hrest, Option.map_map]
        rfl
      · -- no equals sign, so neither text has an entry here
        simp [hequals, collapse_cons_of_not_isBlank hc]

/-- The next part of a collapsed text is that of the text, collapsed. -/
theorem nextPart_collapse (cs : List Char) :
    nextPart (collapse cs) = collapse (nextPart cs) := by
  have hhead := List.head?_dropWhile_not (· != ',') cs
  rw [nextPart, nextPart, dropWhile_collapse fun c hc => ne_comma_of_isBlank hc]
  cases hdrop : cs.dropWhile (· != ',') with
  | nil => rfl
  | cons c rest =>
    rw [hdrop] at hhead
    obtain rfl : c = ',' := by simpa using hhead
    rfl

/-! ### Part by part -/

theorem suffix_nextPart (cs : List Char) : nextPart cs <:+ cs :=
  (List.tail_suffix _).trans (List.dropWhile_suffix _)

/-- **The assignments of a collapsed text are those of the text.** -/
theorem assignments?_collapse {cs : List Char} (h : QuoteFree cs) :
    assignments? (collapse cs) = assignments? cs := by
  fun_induction assignments? cs with
  | case1 => exact assignments?_nil
  | case2 c cs hnone =>
    refine assignments?_eq_none_of_part? ?_
    rw [part?_collapse h, hnone, Option.map_none]
  | case3 c cs rest hpart ih =>
    have hnext : QuoteFree (nextPart rest) :=
      h.of_subset ((suffix_nextPart rest).trans (suffix_of_part? hpart)).subset
    have hcollapsed : part? (collapse (c :: cs)) = some (none, collapse rest) := by
      rw [part?_collapse h, hpart, Option.map_some]
    rw [assignments?_of_part? hcollapsed, nextPart_collapse, ih hnext]
    exact Option.map_id' ..
  | case4 c cs e rest hpart ih =>
    have hnext : QuoteFree (nextPart rest) :=
      h.of_subset ((suffix_nextPart rest).trans (suffix_of_part? hpart)).subset
    have hcollapsed : part? (collapse (c :: cs)) = some (some e, collapse rest) := by
      rw [part?_collapse h, hpart, Option.map_some]
    rw [assignments?_of_part? hcollapsed, nextPart_collapse, ih hnext]
    rfl

/-- Blanks at the start of settings are passed over. -/
theorem assignments?_dropWhile (cs : List Char) :
    assignments? (cs.dropWhile isBlank) = assignments? cs := by
  have hpart : part? (cs.dropWhile isBlank) = part? cs := by
    have hstops : Stops isBlank (cs.dropWhile isBlank) := by
      intro c hc
      have hhead := List.head?_dropWhile_not isBlank cs
      rw [Option.mem_def.mp hc] at hhead
      exact hhead
    rw [part?, part?, dropWhile_of_stops hstops]
  cases h : part? cs with
  | none => rw [assignments?_eq_none_of_part? h, assignments?_eq_none_of_part? (hpart.trans h)]
  | some part =>
    obtain ⟨e, rest⟩ := part
    rw [assignments?_of_part? h, assignments?_of_part? (hpart.trans h)]

/-- **An argument that holds the words of a text has the settings of the text.**  Where neither
quote occurs, both can be read, and the settings are the same, whatever blanks part the words in
the text.  The text is bytes, and need not be well-formed. -/
theorem ofNodes?_words (raw : List UInt8) (hdouble : '"'.toUInt8 ∉ raw)
    (hsingle : '\''.toUInt8 ∉ raw) {ns : List Node}
    (h : Node.Texts ns ((splitWords (Utf8.decode raw)).map String.ofList)) :
    ∃ settings, ofNodes? ns = .ok settings ∧ parse? (Utf8.decode raw) = .ok settings := by
  have hquote : QuoteFree (Utf8.decode raw) := .decode hdouble hsingle
  have hsource : Node.writtenList [] ns = collapse ((Utf8.decode raw).dropWhile isBlank) := by
    rw [h.writtenList_eq, List.map_map, ← intercalate_splitWords]
    congr 1
    exact List.map_id'' (fun w => String.toList_ofList) _
  have hassignments : assignments? (Node.writtenList [] ns) = assignments? (Utf8.decode raw) := by
    rw [hsource, assignments?_collapse (hquote.of_subset (List.dropWhile_subset _)),
      assignments?_dropWhile]
  refine ⟨_, ?_, parse?_eq_pieces raw hdouble hsingle⟩
  rw [← parse?_eq_pieces raw hdouble hsingle, ofNodes?, parse?, parse?, hassignments]

/-- Settings with a no-break space behind the first equals sign and a tab behind the comma. -/
def spacedOut : List UInt8 := Utf8.bytes " width =\u00a03cm ,\tDraft, h= "

/-- Its words, one text for each. -/
def wordNodes : List Node :=
  [.text "width" none, .text "=" none, .text "3cm" none, .text "," none, .text "Draft," none,
    .text "h=" none]

/-- The argument that holds the words has the settings of the text. -/
theorem ofNodes?_wordNodes :
    '"'.toUInt8 ∉ spacedOut ∧ '\''.toUInt8 ∉ spacedOut ∧
    Node.Texts wordNodes ((splitWords (Utf8.decode spacedOut)).map String.ofList) ∧
    ofNodes? wordNodes = .ok (ofList [("h", ""), ("width", "3cm")]) ∧
    parse? (Utf8.decode spacedOut) = .ok (ofList [("h", ""), ("width", "3cm")]) := by
  have hdouble : '"'.toUInt8 ∉ spacedOut := by decide +kernel
  have hsingle : '\''.toUInt8 ∉ spacedOut := by decide +kernel
  have hwords : (splitWords (Utf8.decode spacedOut)).map String.ofList =
      ["width", "=", "3cm", ",", "Draft,", "h="] := by decide +kernel
  have htexts : Node.Texts wordNodes ((splitWords (Utf8.decode spacedOut)).map String.ofList) := by
    rw [hwords]
    exact .cons _ _ (.cons _ _ (.cons _ _ (.cons _ _ (.cons _ _ (.cons _ _ .nil)))))
  have hread : parse? (Utf8.decode spacedOut) = .ok (ofList [("h", ""), ("width", "3cm")]) := by
    decide +kernel
  obtain ⟨settings, hnodes, htext⟩ := ofNodes?_words spacedOut hdouble hsingle htexts
  exact ⟨hdouble, hsingle, htexts, hnodes.trans (htext.symm.trans hread), hread⟩

end Settings

end TexTree

/-
TexTree/Proofs/Text/Words.lean

The words of a text are what stands between its blanks.  Put together with one space
between them, they are the text with each run of blanks made one space, and with none at
its ends:

    words of s, spaces between  =  collapse (s without the blanks at its start)

(`intercalate_splitWords`).

A scanner that treats all blanks alike does not notice: what it takes from the collapsed
text and what it leaves are the same as from the text, collapsed
(`takeWhile_collapse`, `dropWhile_collapse`).

Design.  `collapse` keeps a blank exactly where a word follows it, as a space.  So it is
given character by character, with one look ahead, and every fact about it goes by
induction over the text; at the end of the text the blanks are gone, and at its start a
space is left of them.
-/
import TexTree.Proofs.Text.Cut
import TexTree.Text.Blank

namespace TexTree

/-- The words of a text, in their order. -/
def splitWords (s : List Char) : List (List Char) := (s.splitOnP isBlank).filter fun w => w ≠ []

/-- A word starts here. -/
def startsWord (s : List Char) : Bool := s.head?.any fun c => !isBlank c

/-- The text with one space for each run of blanks, and nothing for the run at its end. -/
def collapse : List Char → List Char
  | [] => []
  | c :: s =>
    if isBlank c then if startsWord s then ' ' :: collapse s else collapse s
    else c :: collapse s

variable {c : Char} {s : List Char}

theorem collapse_cons_of_not_isBlank (h : isBlank c = false) :
    collapse (c :: s) = c :: collapse s := by
  rw [collapse, if_neg (by simp [h])]

theorem collapse_cons_of_isBlank (h : isBlank c) :
    collapse (c :: s) = if startsWord s then ' ' :: collapse s else collapse s := by
  rw [collapse, if_pos h]

/-- Nothing is in a collapsed text but what is in the text, and spaces. -/
theorem mem_of_mem_collapse {d : Char} (h : d ∈ collapse s) : d ∈ s ∨ d = ' ' := by
  induction s with
  | nil => cases h
  | cons c s ih =>
    rw [collapse] at h
    split at h
    · split at h
      · rcases List.mem_cons.mp h with rfl | h
        · exact .inr rfl
        · exact (ih h).imp_left (List.mem_cons_of_mem c)
      · exact (ih h).imp_left (List.mem_cons_of_mem c)
    · rcases List.mem_cons.mp h with rfl | h
      · exact .inl List.mem_cons_self
      · exact (ih h).imp_left (List.mem_cons_of_mem c)

/-! ### Scanning -/

/-- Where no word starts, a class without blanks takes nothing. -/
theorem stops_of_not_startsWord {p : Char → Bool} (hp : ∀ c, isBlank c → p c = false)
    (h : ¬startsWord s) : Stops p s := by
  cases s with
  | nil => exact stops_nil
  | cons c t => exact stops_cons.mpr (hp c (by simpa [startsWord] using h))

/-- What a class without blanks takes stands in front of the first blank. -/
theorem takeWhile_collapse {p : Char → Bool} (hp : ∀ c, isBlank c → p c = false) (s : List Char) :
    (collapse s).takeWhile p = s.takeWhile p := by
  induction s with
  | nil => rfl
  | cons c s ih =>
    cases hc : isBlank c with
    | false => rw [collapse_cons_of_not_isBlank hc, List.takeWhile_cons, List.takeWhile_cons, ih]
    | true =>
      rw [collapse_cons_of_isBlank hc, takeWhile_of_stops (stops_cons.mpr (hp c hc))]
      split
      · exact takeWhile_of_stops (stops_cons.mpr (hp ' ' rfl))
      · next hword => rw [ih, takeWhile_of_stops (stops_of_not_startsWord hp hword)]

/-- A class that has all blanks or none leaves the same rest, collapsed. -/
theorem dropWhile_collapse {p : Char → Bool} (hp : ∀ c, isBlank c → p c = p ' ')
    (s : List Char) : (collapse s).dropWhile p = collapse (s.dropWhile p) := by
  induction s with
  | nil => rfl
  | cons c s ih =>
    cases hc : isBlank c with
    | false =>
      rw [collapse_cons_of_not_isBlank hc, List.dropWhile_cons, List.dropWhile_cons, ih]
      split
      · rfl
      · rw [collapse_cons_of_not_isBlank hc]
    | true =>
      cases hspace : p ' ' with
      | true =>
        have hcp : p c := by rw [hp c hc, hspace]
        rw [collapse_cons_of_isBlank hc, List.dropWhile_cons_of_pos hcp, ← ih]
        split
        · exact List.dropWhile_cons_of_pos hspace
        · rfl
      | false =>
        have hp' : ∀ d, isBlank d → p d = false := fun d hd => (hp d hd).trans hspace
        rw [dropWhile_of_stops (stops_cons.mpr (hp' c hc)), collapse_cons_of_isBlank hc]
        split
        · exact dropWhile_of_stops (stops_cons.mpr hspace)
        · next hword => rw [ih, dropWhile_of_stops (stops_of_not_startsWord hp' hword)]

/-! ### Words -/

/-- Blanks at the start belong to no word. -/
theorem splitWords_dropWhile (s : List Char) : splitWords (s.dropWhile isBlank) = splitWords s := by
  induction s with
  | nil => rfl
  | cons c s ih =>
    rw [List.dropWhile_cons]
    split
    · next hc =>
      rw [ih, splitWords, splitWords, List.splitOnP_cons_eq_if_modifyHead, if_pos hc,
        List.filter_cons_of_neg (by simp)]
    · rfl

/-- A collapsed text is what stands in front of its first blank, and then its further words, with
a space in front of each. -/
theorem exists_collapse_eq (s : List Char) :
    ∃ first more, s.splitOnP isBlank = first :: more ∧ (first ≠ [] ↔ startsWord s) ∧
      collapse s = first ++ (more.filter fun w => w ≠ []).flatMap (' ' :: ·) := by
  induction s with
  | nil => exact ⟨[], [], rfl, by simp [startsWord], rfl⟩
  | cons c s ih =>
    obtain ⟨first, more, hsplit, hfirst, hcollapse⟩ := ih
    rw [List.splitOnP_cons_eq_if_modifyHead, hsplit]
    cases hc : isBlank c with
    | false =>
      refine ⟨c :: first, more, rfl, by simp [startsWord, hc], ?_⟩
      rw [collapse_cons_of_not_isBlank hc, hcollapse]
      rfl
    | true =>
      refine ⟨[], first :: more, rfl, by simp [startsWord, hc], ?_⟩
      rw [collapse_cons_of_isBlank hc, hcollapse, List.nil_append]
      by_cases hnil : first = []
      · rw [if_neg fun hword => hfirst.mpr hword hnil, hnil, List.nil_append,
          List.filter_cons_of_neg (by simp)]
      · rw [if_pos (hfirst.mp hnil), List.filter_cons_of_pos (by simpa using hnil),
          List.flatMap_cons, List.cons_append]

theorem intercalate_cons (first : List Char) (more : List (List Char)) :
    [' '].intercalate (first :: more) = first ++ more.flatMap (' ' :: ·) := by
  induction more generalizing first with
  | nil => rw [List.intercalate_singleton, List.flatMap_nil, List.append_nil]
  | cons next more ih =>
    rw [List.intercalate_cons_cons, ih, List.flatMap_cons, List.append_assoc]
    rfl

/-- **The words with spaces between them are the collapsed text**, without the space that may be
left at its start. -/
theorem intercalate_splitWords (s : List Char) :
    [' '].intercalate (splitWords s) = collapse (s.dropWhile isBlank) := by
  rw [← splitWords_dropWhile]
  have hhead := List.head?_dropWhile_not isBlank s
  generalize s.dropWhile isBlank = t at hhead ⊢
  obtain ⟨first, more, hsplit, hfirst, hcollapse⟩ := exists_collapse_eq t
  cases t with
  | nil => rfl
  | cons c t =>
    have hword : startsWord (c :: t) := by simpa [startsWord] using hhead
    rw [splitWords, hsplit, List.filter_cons_of_pos (by simpa using hfirst.mpr hword),
      intercalate_cons, hcollapse]

end TexTree

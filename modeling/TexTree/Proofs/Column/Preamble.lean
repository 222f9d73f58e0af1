/-
TexTree/Proofs/Column/Preamble.lean

The language of preambles, and that `columns` reads all of it.  A preamble is a list
of items, a repeat holding a preamble of its own:

    |        c l r p m b        p{w} m{w} b{w}        @{d} !{d} >{d} <{d}        *{n}{..}

An item is written as a text and stands for a list of marks, and both are given by
recursion over the items alone:

    text items         how the preamble is written
    meaning items      its rules and columns, copies written out

Main result: with blanks inserted anywhere in `text items`, `columns` gives the
columns of `meaning items`, each with a border where its neighbour is a rule
(`columns_eq_bordered`).

Design.  Blanks go first, so everything is said of the text without them
(`WithBlanks.filter_eq`); the groups stay balanced, a count has none.  What is left
is one lemma for each kind of item, with the text behind it as a rest that must not
start with a brace, and no item does.
-/
import TexTree.Column.Layout
import TexTree.Proofs.Column.Braced
import TexTree.Proofs.Text.Bytes

namespace TexTree

/-! ### The language -/

/-- The letter of the alignment may have a width behind it. -/
def Align.isParagraph : Align → Bool
  | .top | .middle | .bottom => true
  | .center | .left | .right => false

namespace Preamble

/-- A text in which braces match. -/
structure Inside where
  chars : List Char
  balanced : Balanced chars

/-- A number as it is written in a repeat. -/
structure Count where
  literal : List Char
  value : Int64
  reads : Numeral.signed? literal = some value

/-- The signs that decorate what stands next to them. -/
inductive Decoration where
  | between
  | instead
  | before
  | after

/-- The character of a sign. -/
def Decoration.sign : Decoration → Char
  | .between => '@'
  | .instead => '!'
  | .before => '>'
  | .after => '<'

/-- An item of a preamble. -/
inductive Item where
  /-- A vertical rule. -/
  | rule
  /-- The letter of a column and nothing else. -/
  | column (align : Align)
  /-- The letter of a paragraph column with its width. -/
  | paragraph (align : Align) (h : align.isParagraph) (width : Inside)
  /-- A decoration. -/
  | decoration (sign : Decoration) (inside : Inside)
  /-- Copies of a preamble. -/
  | repeated (count : Count) (body : List Item)

mutual

/-- How an item is written. -/
def Item.text : Item → List Char
  | .rule => ['|']
  | .column align => [align.letter]
  | .paragraph align _ width => align.letter :: grouped width.chars
  | .decoration sign inside => sign.sign :: grouped inside.chars
  | .repeated count body => '*' :: (grouped count.literal ++ grouped (text body))

/-- How a preamble is written. -/
def text : List Item → List Char
  | [] => []
  | item :: items => item.text ++ text items

end

/-- A character that counts in a preamble. -/
def solid (c : Char) : Bool := c ∉ [' ', '\t', '\r', '\n']

mutual

/-- The marks that an item stands for. -/
def Item.meaning : Item → List ColumnMark
  | .rule => [.rule]
  | .column align => [.column align []]
  | .paragraph align _ width => [.column align (width.chars.filter solid)]
  | .decoration _ _ => []
  | .repeated count body =>
    (List.replicate (max 0 (min count.value.toInt 256)).toNat (meaning body)).flatten

/-- The marks that a preamble stands for. -/
def meaning : List Item → List ColumnMark
  | [] => []
  | item :: items => item.meaning ++ meaning items

end

/-- The second text is the first with blanks inserted. -/
inductive WithBlanks : List Char → List Char → Prop
  | nil : WithBlanks [] []
  | char {t cs : List Char} (c : Char) (h : WithBlanks t cs) : WithBlanks (c :: t) (c :: cs)
  | blank {t cs : List Char} {b : Char} (hb : b ∈ [' ', '\t', '\r', '\n']) (h : WithBlanks t cs) :
      WithBlanks t (b :: cs)

/-- The `i`-th mark is a rule. -/
def ruleAt (ms : List ColumnMark) (i : Nat) : Bool := ms[i]? == some .rule

/-- The column in the `i`-th place, if the mark there is one, with a border on each side where
the next mark is a rule. -/
def columnAt? (ms : List ColumnMark) (i : Nat) : Option Column :=
  match ms[i]? with
  | some (.column align width) =>
    some ⟨0 < i && ruleAt ms (i - 1), align, String.ofList width, ruleAt ms (i + 1)⟩
  | _ => none

/-- The columns among the marks, with their borders. -/
def bordered (ms : List ColumnMark) : List Column :=
  (List.range ms.length).filterMap (columnAt? ms)

/-! ### Blanks -/

theorem isPreambleBlank_eq (c : Char) : (!isPreambleBlank c) = solid c := by
  simp only [isPreambleBlank, solid, List.mem_cons, List.not_mem_nil, or_false, decide_not]
  rw [Bool.eq_iff_iff]
  simp only [Bool.not_eq_true', Bool.or_eq_false_iff, beq_eq_false_iff_ne, decide_eq_false_iff_not]
  tauto

theorem not_solid_of_mem {b : Char} (hb : b ∈ [' ', '\t', '\r', '\n']) : ¬solid b := by
  rw [solid, decide_eq_true_eq, not_not]
  exact hb

/-- Blanks that have been inserted are taken out again. -/
theorem WithBlanks.filter_eq {t cs : List Char} (h : WithBlanks t cs) :
    cs.filter solid = t.filter solid := by
  induction h with
  | nil => rfl
  | char c h ih => rw [List.filter_cons, List.filter_cons, ih]
  | blank hb h ih => rw [List.filter_cons_of_neg (not_solid_of_mem hb), ih]

theorem solid_of_le {c : Char} (h : 0x80 ≤ c.toNat) : solid c := by
  rw [solid, decide_eq_true_eq]
  intro hc
  simp only [List.mem_cons, List.not_mem_nil, or_false] at hc
  rcases hc with rfl | rfl | rfl | rfl <;> exact absurd h (by decide)

theorem columns_eq (cs : List Char) : columns cs = layout (marks (cs.filter solid)) := by
  rw [columns, List.filter_congr fun c _ => isPreambleBlank_eq c]

/-- A text has the columns of its bytes. -/
theorem columnsOfBytes_bytes (s : String) : columnsOfBytes (Utf8.bytes s) = columns s.toList := by
  rw [columnsOfBytes, columns_eq, List.filter_congr fun b _ => isPreambleBlank_eq _,
    Utf8.decode_filter_bytes fun c hc => solid_of_le hc]

/-! ### Counts -/

/-- A count is written with digits and signs. -/
theorem Count.isDigit_or_sign (n : Count) : ∀ c ∈ n.literal, c.isDigit ∨ c = '+' ∨ c = '-' := by
  have hdigits : ∀ {s : List Char} {f : Nat → Option Int64},
      (Numeral.natural? s).bind f = some n.value → ∀ c ∈ s, c.isDigit := by
    intro s f h
    obtain ⟨k, hk, -⟩ := Option.bind_eq_some_iff.mp h
    rw [Numeral.natural?] at hk
    split at hk
    · next hs => exact List.all_eq_true.mp (Bool.and_eq_true_iff.mp hs).2
    · cases hk
  have hreads := n.reads
  intro c hc
  unfold Numeral.signed? at hreads
  split at hreads
  · rename_i s heq
    rw [heq] at hc
    rcases List.mem_cons.mp hc with rfl | hc
    · exact .inr (.inl rfl)
    · exact .inl (hdigits hreads c hc)
  · rename_i s heq
    rw [heq] at hc
    rcases List.mem_cons.mp hc with rfl | hc
    · exact .inr (.inr rfl)
    · exact .inl (hdigits hreads c hc)
  · exact .inl (hdigits hreads c hc)

/-- No brace and no blank stands in a count. -/
theorem Count.ne_of_mem (n : Count) {c : Char} (hc : c ∈ n.literal) :
    (c ≠ '\x7b' ∧ c ≠ '\x7d') ∧ solid c := by
  rcases n.isDigit_or_sign c hc with h | rfl | rfl
  · refine ⟨⟨?_, ?_⟩, ?_⟩
    · rintro rfl
      exact absurd h (by decide)
    · rintro rfl
      exact absurd h (by decide)
    · rw [solid, decide_eq_true_eq]
      intro hblank
      simp only [List.mem_cons, List.not_mem_nil, or_false] at hblank
      rcases hblank with rfl | rfl | rfl | rfl <;> exact absurd h (by decide)
  · decide
  · decide

theorem Count.filter_literal (n : Count) : n.literal.filter solid = n.literal :=
  List.filter_eq_self.mpr fun _ hc => (n.ne_of_mem hc).2

theorem Count.balanced_literal (n : Count) : Balanced n.literal :=
  .of_forall_ne fun _ hc => (n.ne_of_mem hc).1

/-- As many copies are made as the number says, but none for a negative one and at most 256. -/
theorem Count.copies_literal (n : Count) :
    copies n.literal = (max 0 (min n.value.toInt 256)).toNat := by
  rw [copies, n.reads]
  show min n.value.toInt.toNat 256 = _
  omega

/-! ### Groups of a preamble -/

/-- Taking out the blanks goes into a group. -/
theorem filter_grouped (cs : List Char) :
    (grouped cs).filter solid = grouped (cs.filter solid) := by
  rw [grouped, List.filter_cons_of_pos (by decide), List.filter_append]
  rfl

theorem letter_ne_brace (align : Align) :
    align.letter ≠ '\x7b' ∧ align.letter ≠ '\x7d' := by
  cases align <;> decide

theorem sign_ne_brace (sign : Decoration) : sign.sign ≠ '\x7b' ∧ sign.sign ≠ '\x7d' := by
  cases sign <;> decide

mutual

theorem Item.balanced_text : ∀ item : Item, Balanced item.text
  | .rule => balanced_cons (by decide) .nil
  | .column align => balanced_cons (letter_ne_brace align) .nil
  | .paragraph align _ width => balanced_cons (letter_ne_brace align) width.balanced.grouped
  | .decoration sign inside => balanced_cons (sign_ne_brace sign) inside.balanced.grouped
  | .repeated count body =>
    balanced_cons (by decide) (count.balanced_literal.grouped.append (balanced_text body).grouped)

/-- Braces match in a preamble. -/
theorem balanced_text : ∀ items : List Item, Balanced (text items)
  | [] => .nil
  | item :: items => (Item.balanced_text item).append (balanced_text items)

end

/-- No preamble starts with a group. -/
theorem stops_text (items : List Item) : Stops (· == '\x7b') ((text items).filter solid) := by
  cases items with
  | nil => exact stops_nil
  | cons item items =>
    rw [text, List.filter_append]
    cases item with
    | rule => exact stops_cons.mpr rfl
    | column align => cases align <;> exact stops_cons.mpr rfl
    | paragraph align _ width => cases align <;> exact stops_cons.mpr rfl
    | decoration sign inside => cases sign <;> exact stops_cons.mpr rfl
    | repeated count body => exact stops_cons.mpr rfl

/-! ### Reading one item -/

theorem marks_cons (c : Char) (cs : List Char) :
    marks (c :: cs) =
      match letter c with
      | .rule => .rule :: marks cs
      | .line align => .column align [] :: marks cs
      | .paragraph align => .column align (braced cs).content :: marks (braced cs).rest
      | .decoration => marks (braced cs).rest
      | .copies =>
        (List.replicate (copies (braced cs).content)
          (marks (braced (braced cs).rest).content)).flatten ++
            marks (braced (braced cs).rest).rest
      | .other => marks cs := by
  rw [marks.eq_def]
  dsimp only
  cases letter c with
  | copies =>
    dsimp only
    cases copies (braced cs).content <;> rfl
  | _ => rfl

theorem letter_letter (align : Align) :
    letter align.letter = if align.isParagraph then .paragraph align else .line align := by
  cases align <;> rfl

theorem letter_sign (sign : Decoration) : letter sign.sign = .decoration := by
  cases sign <;> rfl

/-- The letter of a column without a group behind it. -/
theorem marks_letter (align : Align) {rest : List Char} (h : Stops (· == '\x7b') rest) :
    marks (align.letter :: rest) = .column align [] :: marks rest := by
  rw [marks_cons, letter_letter]
  cases align.isParagraph with
  | true => simp [braced_of_stops h]
  | false => rfl

/-- The letter of a paragraph column with its width. -/
theorem marks_paragraph {align : Align} (hp : align.isParagraph) {w : List Char} (hw : Balanced w)
    (rest : List Char) :
    marks (align.letter :: (grouped w ++ rest)) = .column align w :: marks rest := by
  rw [marks_cons, letter_letter, if_pos hp]
  simp only [braced_grouped hw]

theorem marks_decoration (sign : Decoration) {d : List Char} (hd : Balanced d)
    (rest : List Char) : marks (sign.sign :: (grouped d ++ rest)) = marks rest := by
  rw [marks_cons, letter_sign]
  simp only [braced_grouped hd]

theorem marks_repeated {n body : List Char} (hn : Balanced n) (hbody : Balanced body)
    (rest : List Char) :
    marks ('*' :: (grouped n ++ (grouped body ++ rest))) =
      (List.replicate (copies n) (marks body)).flatten ++ marks rest := by
  have hletter : letter '*' = .copies := rfl
  rw [marks_cons, hletter]
  simp only [braced_grouped hn, braced_grouped hbody]

/-! ### Reading a preamble -/

theorem balanced_filter {cs : List Char} (h : Balanced cs) : Balanced (cs.filter solid) :=
  (balanced_filter_iff rfl rfl).mpr h

mutual

/-- An item is read in front of anything that does not start with a group. -/
theorem Item.marks_text : ∀ (item : Item) {rest : List Char}, Stops (· == '\x7b') rest →
    marks (item.text.filter solid ++ rest) = item.meaning ++ marks rest
  | .rule, rest, _ => by
    show marks ('|' :: rest) = _
    rw [marks_cons]
    rfl
  | .column align, rest, h => by
    have htext : (Item.column align).text.filter solid = [align.letter] := by
      cases align <;> rfl
    rw [htext, List.singleton_append, marks_letter align h]
    rfl
  | .paragraph align hp width, rest, _ => by
    have htext : (Item.paragraph align hp width).text.filter solid =
        align.letter :: grouped (width.chars.filter solid) := by
      rw [Item.text, List.filter_cons_of_pos (by cases align <;> rfl), filter_grouped]
    rw [htext, List.cons_append, marks_paragraph hp (balanced_filter width.balanced)]
    rfl
  | .decoration sign inside, rest, _ => by
    have htext : (Item.decoration sign inside).text.filter solid =
        sign.sign :: grouped (inside.chars.filter solid) := by
      rw [Item.text, List.filter_cons_of_pos (by cases sign <;> rfl), filter_grouped]
    rw [htext, List.cons_append, marks_decoration sign (balanced_filter inside.balanced)]
    rfl
  | .repeated count body, rest, _ => by
    have htext : (Item.repeated count body).text.filter solid =
        '*' :: (grouped count.literal ++ grouped ((text body).filter solid)) := by
      rw [Item.text, List.filter_cons_of_pos rfl, List.filter_append, filter_grouped,
        filter_grouped, count.filter_literal]
    rw [htext, List.cons_append, List.append_assoc,
      marks_repeated count.balanced_literal (balanced_filter (balanced_text body)),
      marks_text body, count.copies_literal]
    rfl

/-- **A preamble is read as what it means.** -/
theorem marks_text : ∀ items : List Item, marks ((text items).filter solid) = meaning items
  | [] => by
    show marks [] = []
    rw [marks.eq_def]
  | item :: items => by
    rw [text, List.filter_append, Item.marks_text item (stops_text items), marks_text items]
    rfl

end

/-! ### Borders -/

/-- Behind the marks `before`, of which the last tells whether there is a border, the columns
are those in the places behind them. -/
theorem layoutFrom_eq (before ms : List ColumnMark) :
    layoutFrom (0 < before.length && ruleAt (before ++ ms) (before.length - 1)) ms =
      (List.range' before.length ms.length).filterMap (columnAt? (before ++ ms)) := by
  induction ms generalizing before with
  | nil => rfl
  | cons m ms ih =>
    have hat : (before ++ m :: ms)[before.length]? = some m := by simp
    have hnext : ruleAt (before ++ m :: ms) (before.length + 1) = startsWithRule ms := by
      rw [ruleAt, List.getElem?_append_right (by omega)]
      rcases ms with - | ⟨- | ⟨align, width⟩, ms⟩ <;> simp [startsWithRule]
    -- the mark that comes next is the last one before the rest
    have hrest := ih (before ++ [m])
    rw [List.append_assoc, List.singleton_append, List.length_append, List.length_singleton,
      Nat.add_sub_cancel] at hrest
    rw [List.length_cons, List.range'_succ, List.filterMap_cons, ← hrest]
    have hrule : ruleAt (before ++ m :: ms) before.length = (some m == some .rule) := by
      rw [ruleAt, hat]
    rw [hrule, decide_eq_true (Nat.succ_pos _), Bool.true_and]
    cases m with
    | rule =>
      simp only [columnAt?, hat]
      rfl
    | column align width =>
      simp only [columnAt?, hat, hnext]
      rfl

/-- **Borders are a matter of the neighbours.** -/
theorem layout_eq_bordered (ms : List ColumnMark) : layout ms = bordered ms := by
  have h := layoutFrom_eq [] ms
  rw [List.nil_append] at h
  rw [layout, bordered, List.range_eq_range']
  exact h

/-- **The columns of a preamble.**  However blanks are inserted in the text of a preamble, its
columns are those of the marks that it stands for, in order, each with its alignment and its
width, and with a border on the left exactly when the mark before it is a rule and on the right
exactly when the mark behind it is one.  The same holds of the bytes of the text. -/
theorem columns_eq_bordered (items : List Item) {cs : List Char}
    (h : WithBlanks (text items) cs) :
    columns cs = bordered (meaning items) ∧
      columnsOfBytes (Utf8.bytes (String.ofList cs)) = bordered (meaning items) := by
  have hcolumns : columns cs = bordered (meaning items) := by
    rw [columns_eq, h.filter_eq, marks_text, layout_eq_bordered]
  refine ⟨hcolumns, ?_⟩
  rw [columnsOfBytes_bytes, String.toList_ofList, hcolumns]

/-- The number two. -/
def Count.two : Count := ⟨['2'], 2, by decide +kernel⟩

/-- The rule at the end of a copy is the border of the next one. -/
theorem columns_two_copies :
    WithBlanks (text [.rule, .repeated .two [.column .center, .rule]])
      "| *\x7b2\x7d\x7bc\n|\x7d".toList ∧
    columns "| *\x7b2\x7d\x7bc\n|\x7d".toList =
      [⟨true, .center, "", true⟩, ⟨true, .center, "", true⟩] := by
  have h : WithBlanks (text [.rule, .repeated .two [.column .center, .rule]])
      "| *\x7b2\x7d\x7bc\n|\x7d".toList :=
    .char '|' <| .blank (by decide) <| .char '*' <| .char '\x7b' <| .char '2' <| .char '\x7d' <|
      .char '\x7b' <| .char 'c' <| .blank (by decide) <| .char '|' <| .char '\x7d' .nil
  refine ⟨h, (columns_eq_bordered _ h).1.trans ?_⟩
  decide +kernel

end Preamble

end TexTree

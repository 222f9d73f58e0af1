/-
TexTree/Proofs/Search/Coordinates.lean

The two coordinates of a point, and when looking up a place by either of them finds the
same node.

    k.key p             where a point stands in the coordinate k, in a linear order
    k.cursor p s e      the cursor at a point, given in the coordinate k
    num : Numbering     lines and columns of the offsets of a source, growing with them

A cursor lies inside a span when the order of the keys says so (`isIn_cursor`).  A numbering
keeps the order, so that in a forest it numbers a cursor given by offset, by line and
column, or by both lies inside the same nodes; and cursors that lie inside the same nodes
find the same node (`lookupFrom_congr`).
-/
import Mathlib.Algebra.Order.Ring.Int
import Mathlib.Data.Prod.Lex
import Mathlib.Data.Set.Insert
import Mathlib.Order.Compare
import TexTree.Proofs.Search.Addresses
import TexTree.Search.Lookup

namespace TexTree

/-! ### Coordinates -/

/-- A coordinate of points. -/
inductive Coordinate where
  | offset
  | lineColumn

namespace Coordinate

/-- Where a point stands in a coordinate: its line and column, or its offset alone, in the
lexicographic order. -/
def key : Coordinate → Point → Int ×ₗ Int
  | .offset, p => toLex (p.offset.toInt, 0)
  | .lineColumn, p => toLex (p.line.toInt, p.column.toInt)

/-- The cursor at a point, given in one coordinate, and with a choice of which ends of a span
count as inside. -/
def cursor (k : Coordinate) (p : Point) (s e : Bool) : Cursor :=
  match k with
  | .offset => (Cursor.atOffset p.offset).inclusive s e
  | .lineColumn => (Cursor.atLineColumn p.line p.column).inclusive s e

theorem key_offset_lt_iff {p q : Point} :
    key .offset p < key .offset q ↔ p.offset < q.offset := by
  rw [key, key, Prod.Lex.toLex_lt_toLex, Int64.lt_iff_toInt_lt]
  simp only [lt_self_iff_false, and_false, or_false]

theorem key_lineColumn_lt_iff {p q : Point} : key .lineColumn p < key .lineColumn q ↔
    p.line < q.line ∨ p.line = q.line ∧ p.column < q.column := by
  rw [key, key, Prod.Lex.toLex_lt_toLex, Int64.lt_iff_toInt_lt, Int64.lt_iff_toInt_lt,
    Int64.toInt_inj]

theorem cmp_key_offset (p q : Point) :
    cmp (key .offset p) (key .offset q) = Cursor.compareWord p.offset q.offset := by
  unfold cmp cmpUsing
  simp only [key_offset_lt_iff, Cursor.compareWord]

theorem cmp_key_lineColumn (p q : Point) : cmp (key .lineColumn p) (key .lineColumn q) =
    Cursor.compareLineColumn p q.line q.column := by
  unfold cmp cmpUsing
  simp only [key_lineColumn_lt_iff, Cursor.compareLineColumn, Cursor.compareWord]
  by_cases h : p.line = q.line
  · simp only [h, Int64.lt_irrefl, true_and, false_or, if_true]
  · simp only [h, Ne.symm h, false_and, or_false, if_false]

/-- A cursor lies inside a span whose ends compare with it as their keys do. -/
theorem isIn_cursor (k : Coordinate) (p : Point) (s e : Bool) (l : Location) :
    (k.cursor p s e).isIn (some l) =
      (k.cursor p s e).within (cmp (k.key l.start) (k.key p)) (cmp (k.key l.stop) (k.key p)) := by
  cases k with
  | offset =>
    rw [cmp_key_offset, cmp_key_offset]
    exact Bool.false_or _
  | lineColumn =>
    rw [cmp_key_lineColumn, cmp_key_lineColumn]
    exact Bool.or_false _

/-- A cursor with an offset beside its line and column lies where one of them does. -/
theorem isIn_withOffset (line column o : Int64) (s e : Bool) (loc : Option Location) :
    (((Cursor.atLineColumn line column).withOffset o).inclusive s e).isIn loc =
      (((Cursor.atLineColumn line column).inclusive s e).isIn loc ||
        ((Cursor.atOffset o).inclusive s e).isIn loc) := by
  cases loc with
  | none => rfl
  | some l =>
    show _ = ((_ || false) || (false || _))
    rw [Bool.or_false, Bool.false_or]
    rfl

end Coordinate

/-! ### Cursors that lie inside the same nodes -/

/-- When two cursors lie inside the same nodes of a forest, they find the same node there. -/
theorem lookupFrom_congr {c d : Cursor} {start : Option Found} {ns : List Node}
    (h : ∀ f ∈ walk (Found.chain start) ns, c.isIn f.node.loc = d.isIn f.node.loc) :
    lookupFrom c start ns = lookupFrom d start ns := by
  fun_induction lookupFrom c start ns with
  | case1 start => exact (lookupFrom_nil d start).symm
  | case2 start n ns hin ih =>
    rw [walk_cons] at h
    have hd : d.isIn n.loc = true :=
      (h ⟨n, Found.chain start⟩ (List.mem_cons_self ..)).symm.trans hin
    rw [lookupFrom_cons_of_isIn hd]
    exact ih fun f hf => h f (List.mem_cons_of_mem _ (List.mem_append_left _ hf))
  | case3 start n ns hout ih =>
    rw [walk_cons] at h
    have hd : d.isIn n.loc = false :=
      (h ⟨n, Found.chain start⟩ (List.mem_cons_self ..)).symm.trans (Bool.eq_false_iff.mpr hout)
    rw [lookupFrom_cons_of_not hd]
    exact ih fun f hf => h f (List.mem_cons_of_mem _ (List.mem_append_right _ hf))

/-! ### Numberings -/

/-- The lines and columns of the offsets of a source.  They grow with the offset. -/
structure Numbering where
  domain : Set Int64
  pos : Int64 → Int64 × Int64
  increasing : ∀ a ∈ domain, ∀ b ∈ domain, a < b →
    (pos a).1 < (pos b).1 ∨ (pos a).1 = (pos b).1 ∧ (pos a).2 < (pos b).2

namespace Numbering

variable {num : Numbering}

/-- The point at an offset. -/
def point (num : Numbering) (o : Int64) : Point := ⟨o, (num.pos o).1, (num.pos o).2⟩

/-- A point has the line and column of its offset. -/
def Fits (num : Numbering) (p : Point) : Prop :=
  p.offset ∈ num.domain ∧ (p.line, p.column) = num.pos p.offset

/-- The locations in a forest have the lines and columns of their offsets, at both ends. -/
def Numbers (num : Numbering) (ns : List Node) : Prop :=
  ∀ f ∈ findAll (.is none none) ns, ∀ l ∈ f.node.loc, num.Fits l.start ∧ num.Fits l.stop

theorem fits_point {o : Int64} (h : o ∈ num.domain) : num.Fits (num.point o) := ⟨h, rfl⟩

theorem key_lt_of_key_offset_lt {p q : Point} (hp : num.Fits p) (hq : num.Fits q)
    (h : Coordinate.key .offset p < Coordinate.key .offset q) :
    Coordinate.key .lineColumn p < Coordinate.key .lineColumn q := by
  have hlt := num.increasing _ hp.1 _ hq.1 (Coordinate.key_offset_lt_iff.mp h)
  rw [← hp.2, ← hq.2] at hlt
  exact Coordinate.key_lineColumn_lt_iff.mpr hlt

theorem key_eq_of_key_offset_eq {p q : Point} (hp : num.Fits p) (hq : num.Fits q)
    (h : Coordinate.key .offset p = Coordinate.key .offset q) :
    Coordinate.key .lineColumn p = Coordinate.key .lineColumn q := by
  have hoffset : p.offset = q.offset := Int64.toInt_inj.mp (Prod.mk.inj (toLex.injective h)).1
  have hpos : (p.line, p.column) = (q.line, q.column) := by rw [hp.2, hq.2, hoffset]
  obtain ⟨hline, hcolumn⟩ := Prod.mk.inj hpos
  rw [Coordinate.key, Coordinate.key, hline, hcolumn]

/-- **In a numbering both coordinates compare alike.** -/
theorem cmp_key {p q : Point} (hp : num.Fits p) (hq : num.Fits q) :
    cmp (Coordinate.key .lineColumn p) (Coordinate.key .lineColumn q) =
      cmp (Coordinate.key .offset p) (Coordinate.key .offset q) := by
  rcases lt_trichotomy (Coordinate.key .offset p) (Coordinate.key .offset q) with h | h | h
  · rw [(cmp_eq_lt_iff _ _).mpr h, (cmp_eq_lt_iff _ _).mpr (key_lt_of_key_offset_lt hp hq h)]
  · rw [(cmp_eq_eq_iff _ _).mpr h, (cmp_eq_eq_iff _ _).mpr (key_eq_of_key_offset_eq hp hq h)]
  · rw [(cmp_eq_gt_iff _ _).mpr h, (cmp_eq_gt_iff _ _).mpr (key_lt_of_key_offset_lt hq hp h)]

/-- A cursor at a numbered point lies inside the same numbered locations in both
coordinates. -/
theorem isIn_lineColumn_eq {loc : Option Location} {o : Int64} (ho : o ∈ num.domain)
    (hloc : ∀ l ∈ loc, num.Fits l.start ∧ num.Fits l.stop) (s e : Bool) :
    (Coordinate.lineColumn.cursor (num.point o) s e).isIn loc =
      (Coordinate.offset.cursor (num.point o) s e).isIn loc := by
  cases loc with
  | none => rfl
  | some l =>
    obtain ⟨hstart, hstop⟩ := hloc l rfl
    rw [Coordinate.isIn_cursor, Coordinate.isIn_cursor, cmp_key hstart (fits_point ho),
      cmp_key hstop (fits_point ho)]
    rfl

/-- **Looking up by offset and by line and column agree.**  In a forest with numbered
locations, the cursor at an offset, the cursor at its line and column, and the cursor at
both find the same node with the same nodes above it, or none of them does. -/
theorem lookup_offset_eq_lineColumn (num : Numbering) {ns : List Node} (hns : num.Numbers ns)
    {o : Int64} (ho : o ∈ num.domain) (s e : Bool) :
    lookup ((Cursor.atOffset o).inclusive s e) ns =
      lookup ((Cursor.atLineColumn (num.pos o).1 (num.pos o).2).inclusive s e) ns ∧
    lookup ((Cursor.atOffset o).inclusive s e) ns =
      lookup (((Cursor.atLineColumn (num.pos o).1 (num.pos o).2).withOffset o).inclusive s e)
        ns := by
  have hin : ∀ f ∈ walk (Found.chain none) ns,
      ((Cursor.atLineColumn (num.pos o).1 (num.pos o).2).inclusive s e).isIn f.node.loc =
        ((Cursor.atOffset o).inclusive s e).isIn f.node.loc := by
    intro f hf
    have hf : f ∈ findAll (.is none none) ns := by
      rw [findAll_is_none_none]
      exact hf
    exact isIn_lineColumn_eq ho (hns f hf) s e
  refine ⟨lookupFrom_congr fun f hf => (hin f hf).symm, lookupFrom_congr fun f hf => ?_⟩
  rw [Coordinate.isIn_withOffset, hin f hf, Bool.or_self]

/-- Some offsets of a source whose first line has five characters. -/
def twoLines : Numbering where
  domain := {0, 3, 5, 8}
  pos o := if o < 5 then (1, o + 1) else (2, o - 4)
  increasing := by
    rintro a (rfl | rfl | rfl | rfl) b (rfl | rfl | rfl | rfl) <;> decide

/-- The cursor at the start of the second line, in a text that begins in the first one
further to the right. -/
theorem lookup_second_line :
    let text := Node.text "bc\ndef" (some ⟨⟨3, 1, 4⟩, ⟨8, 2, 4⟩⟩)
    let group := Node.enclosed .group (some [text]) (some ⟨⟨0, 1, 1⟩, ⟨8, 2, 4⟩⟩)
    let ns := [Node.mark .tie none, group]
    twoLines.Numbers ns ∧ (5 : Int64) ∈ twoLines.domain ∧
      lookup ((Cursor.atOffset 5).inclusive false false) ns = some ⟨text, [group]⟩ ∧
      lookup ((Cursor.atOffset 5).inclusive false false) ns =
        lookup ((Cursor.atLineColumn 2 1).inclusive false false) ns ∧
      lookup ((Cursor.atOffset 5).inclusive false false) ns =
        lookup (((Cursor.atLineColumn 2 1).withOffset 5).inclusive false false) ns := by
  intro text group ns
  have hfits : twoLines.Fits ⟨0, 1, 1⟩ ∧ twoLines.Fits ⟨3, 1, 4⟩ ∧ twoLines.Fits ⟨8, 2, 4⟩ :=
    ⟨⟨.inl rfl, by decide⟩, ⟨.inr (.inl rfl), by decide⟩, ⟨.inr (.inr (.inr rfl)), by decide⟩⟩
  have hns : twoLines.Numbers ns := by
    intro f hf l hl
    rw [findAll_is_none_none] at hf
    simp only [ns, group, text, walk_cons, walk_nil, Node.children, Option.getD_some,
      List.append_nil, List.nil_append, List.mem_cons, List.not_mem_nil, or_false] at hf
    obtain rfl | rfl | rfl := hf
    · cases hl
    · obtain ⟨rfl⟩ := hl
      exact ⟨hfits.1, hfits.2.2⟩
    · obtain ⟨rfl⟩ := hl
      exact ⟨hfits.2.1, hfits.2.2⟩
  have ho : (5 : Int64) ∈ twoLines.domain := .inr (.inr (.inl rfl))
  have hlookup : lookup ((Cursor.atOffset 5).inclusive false false) ns = some ⟨text, [group]⟩ := by
    rw [lookup, lookupFrom_cons_of_not rfl, lookupFrom_cons_of_isIn (by decide)]
    show lookupFrom _ (some ⟨group, []⟩) [text] = _
    rw [lookupFrom_cons_of_isIn (by decide)]
    exact lookupFrom_nil _ _
  exact ⟨hns, ho, hlookup, lookup_offset_eq_lineColumn twoLines hns ho false false⟩

end Numbering

end TexTree

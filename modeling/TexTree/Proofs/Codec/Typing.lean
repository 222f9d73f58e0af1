/-
TexTree/Proofs/Codec/Typing.lean

Which values are well-typed, as a judgment that knows nothing of reading:

    HasType s v          the value v is of the type s

The types are those of the fields: texts, words, points, locations, lists of nodes,
single arguments, and nodes.  An object is of its type when every member that bears
the name of a field, in whatever case, is of the field's type; other members may
hold anything.  A node names its kind, and the kind says which fields it has.  Null
is of every type but that of a node.

For the types without nodes the judgment is what the codec asks of a value
(`isText_iff`, `isWord_iff`, `Point.fits_iff`, `Location.fits_iff`).
-/
import TexTree.Codec.Schema

namespace TexTree

open Json (sameName)

/-! ### The judgment -/

/-- The types of values. -/
inductive Shape where
  | text
  | word
  | point
  | location
  | nodes
  | argument
  | node
  deriving DecidableEq

/-- The names and types of the members of an object that has no kind. -/
def Shape.memberTypes? : Shape → Option (List (String × Shape))
  | .point => some [("offset", .word), ("line", .word), ("column", .word)]
  | .location => some [("start", .point), ("end", .point)]
  | .argument => some [("content", .nodes), ("location", .location)]
  | .text | .word | .nodes | .node => none

/-- The type of a field. -/
def Field.shape : Field → Shape
  | .name | .token | .target | .left | .right | .number | .escape | .text => .text
  | .args | .content => .nodes
  | .argument => .argument
  | .location => .location

/-- The names and types of the members of a node of a kind. -/
def Kind.memberTypes (k : Kind) : List (String × Shape) :=
  ("kind", .text) :: k.fields.map fun f => (f.key, f.shape)

/-- The last text among the members of a name is `s`. -/
def LastText (name : String) (members : List (String × Json)) (s : String) : Prop :=
  ∃ before m after, members = before ++ m :: after ∧ sameName name m.1 ∧ m.2 = .text s ∧
    ∀ m ∈ after, sameName name m.1 → ∀ t, m.2 ≠ .text t

/-- The value is of the type. -/
inductive HasType : Shape → Json → Prop
  | null {s : Shape} (h : s ≠ .node) : HasType s .null
  | text (s : String) : HasType .text (.text s)
  | word {n : Int} (h : -9223372036854775808 ≤ n ∧ n < 9223372036854775808) :
      HasType .word (.int n)
  | nodes {items : List Json} (h : ∀ v ∈ items, HasType .node v) : HasType .nodes (.array items)
  | record {s : Shape} {types : List (String × Shape)} {members : List (String × Json)}
      (hs : s.memberTypes? = some types)
      (h : ∀ m ∈ members, ∀ t ∈ types, sameName t.1 m.1 → HasType t.2 m.2) :
      HasType s (.object members)
  | node {k : Kind} {members : List (String × Json)} (hk : LastText "kind" members k.name)
      (h : ∀ m ∈ members, ∀ t ∈ k.memberTypes, sameName t.1 m.1 → HasType t.2 m.2) :
      HasType .node (.object members)

/-! ### The last text of a name -/

/-- Members that hold no text of the name leave a text as it is. -/
theorem foldl_textOr_of_ne_text {name : String} {members : List (String × Json)}
    (h : ∀ m ∈ members, sameName name m.1 → ∀ t, m.2 ≠ .text t) (s : String) :
    members.foldl (fun s m => if sameName name m.1 then textOr s m.2 else s) s = s := by
  induction members with
  | nil => rfl
  | cons m members ih =>
    have hm : (if sameName name m.1 then textOr s m.2 else s) = s := by
      split
      · next hname =>
        rw [textOr]
        exact h m (by simp) hname
      · rfl
    rw [List.foldl_cons, hm]
    exact ih fun n hn => h n (by simp [hn])

theorem foldl_textOr_eq_or {name : String} (members : List (String × Json)) (s : String) :
    (∀ m ∈ members, sameName name m.1 → ∀ t, m.2 ≠ .text t) ∨
      LastText name members
        (members.foldl (fun s m => if sameName name m.1 then textOr s m.2 else s) s) := by
  induction members generalizing s with
  | nil => exact .inl fun m hm => by cases hm
  | cons m members ih =>
    rw [List.foldl_cons]
    -- a text among the later members hides the first one; without it the first one counts
    rcases ih (if sameName name m.1 then textOr s m.2 else s) with hnone | hlast
    · rw [foldl_textOr_of_ne_text hnone]
      by_cases hm : sameName name m.1 ∧ ∃ t, m.2 = .text t
      · obtain ⟨hname, t, ht⟩ := hm
        refine .inr ⟨[], m, members, rfl, hname, ?_, hnone⟩
        rw [if_pos hname, ht, textOr]
      · refine .inl fun n hn hname t ht => ?_
        rcases List.mem_cons.mp hn with rfl | hn
        · exact hm ⟨hname, t, ht⟩
        · exact hnone n hn hname t ht
    · obtain ⟨before, n, after, hmembers, hn⟩ := hlast
      exact .inr ⟨m :: before, n, after, by rw [hmembers]; rfl, hn⟩

/-- The last text is the one that is found, unless there is none. -/
theorem lastText_eq_iff {name s : String} {members : List (String × Json)} (hs : s ≠ "") :
    lastText name members = s ↔ LastText name members s := by
  constructor
  · rintro rfl
    rcases foldl_textOr_eq_or members "" with hnone | hlast
    · -- without a text of the name the result is the empty text
      exact absurd (foldl_textOr_of_ne_text hnone "") hs
    · exact hlast
  · rintro ⟨before, m, after, rfl, hname, hm, hafter⟩
    rw [lastText, List.foldl_append, List.foldl_cons, if_pos hname, hm, textOr]
    exact foldl_textOr_of_ne_text hafter s

/-! ### Values without nodes -/

theorem allNamed_iff {name : String} {p : Json → Bool} {members : List (String × Json)} :
    allNamed name p members = true ↔ ∀ m ∈ members, sameName name m.1 → p m.2 = true := by
  rw [allNamed, List.all_eq_true]
  refine forall₂_congr fun m _ => ?_
  cases sameName name m.1 <;> simp

theorem isText_iff {v : Json} : isText v = true ↔ HasType .text v := by
  constructor
  · intro h
    unfold isText at h
    split at h
    · exact .text _
    · exact .null (by simp)
    · cases h
  · intro h
    cases h with
    | null h => rfl
    | text s => rfl
    | record hs h => cases hs

theorem isWord_iff {v : Json} : isWord v = true ↔ HasType .word v := by
  have hbound : ∀ n : Int, (Numeral.word? n).isSome ↔
      -9223372036854775808 ≤ n ∧ n < 9223372036854775808 := by
    intro n
    rw [Numeral.word?]
    split
    · next h => exact ⟨fun _ => h, fun _ => rfl⟩
    · next h =>
      refine ⟨fun hsome => ?_, fun hn => absurd hn h⟩
      cases hsome
  constructor
  · intro h
    unfold isWord at h
    split at h
    · exact .word ((hbound _).mp h)
    · exact .null (by simp)
    · cases h
  · intro h
    cases h with
    | null h => rfl
    | word h => exact (hbound _).mpr h
    | record hs h => cases hs

/-- A value of a type without a kind is null, or it is an object that is judged by its
members. -/
theorem hasType_record_iff {s : Shape} {types : List (String × Shape)}
    (hs : s.memberTypes? = some types) {v : Json} :
    HasType s v ↔ v = .null ∨ ∃ members, v = .object members ∧
      ∀ t ∈ types, ∀ m ∈ members, sameName t.1 m.1 → HasType t.2 m.2 := by
  constructor
  · intro h
    cases h with
    | null h => exact .inl rfl
    | record hs' h =>
      obtain rfl : types = _ := Option.some.inj (hs.symm.trans hs')
      exact .inr ⟨_, rfl, fun t ht m hm => h m hm t ht⟩
    | text | word | nodes | node => cases hs
  · rintro (rfl | ⟨members, rfl, h⟩)
    · refine .null ?_
      rintro rfl
      cases hs
    · exact .record hs fun m hm t ht => h t ht m hm

theorem not_hasType_record {s : Shape} {types : List (String × Shape)} {v : Json}
    (hs : s.memberTypes? = some types) (hobject : ∀ members, v = .object members → False)
    (hnull : v = .null → False) : ¬HasType s v := by
  rw [hasType_record_iff hs]
  rintro (rfl | ⟨members, rfl, -⟩)
  · exact hnull rfl
  · exact hobject members rfl

theorem Point.fits_iff {v : Json} : Point.fits v = true ↔ HasType .point v := by
  unfold fits
  split
  · rw [hasType_record_iff rfl]
    simp [allNamed_iff, isWord_iff, and_assoc]
  · exact ⟨fun _ => .null (by simp), fun _ => rfl⟩
  · next hobject hnull =>
    exact ⟨(nomatch ·), fun h => absurd h (not_hasType_record rfl hobject hnull)⟩

theorem Location.fits_iff {v : Json} : Location.fits v = true ↔ HasType .location v := by
  unfold fits
  split
  · rw [hasType_record_iff rfl]
    simp [allNamed_iff, Point.fits_iff]
  · exact ⟨fun _ => .null (by simp), fun _ => rfl⟩
  · next hobject hnull =>
    exact ⟨(nomatch ·), fun h => absurd h (not_hasType_record rfl hobject hnull)⟩

/-- The name of the kind, and that it is a text wherever it is given. -/
theorem kindName?_eq_some_iff {members : List (String × Json)} {s : String} (hs : s ≠ "") :
    kindName? members = some s ↔
      (∀ m ∈ members, sameName "kind" m.1 → HasType .text m.2) ∧ LastText "kind" members s := by
  have htexts : allNamed "kind" isText members = true ↔
      ∀ m ∈ members, sameName "kind" m.1 → HasType .text m.2 := by
    rw [allNamed_iff]
    exact forall₂_congr fun m _ => imp_congr_right fun _ => isText_iff
  rw [← htexts, ← lastText_eq_iff hs, kindName?]
  split
  · next h => simp [h]
  · next h => simp [h]

end TexTree

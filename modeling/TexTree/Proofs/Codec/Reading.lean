/-
TexTree/Proofs/Codec/Reading.lean

Reading the members of a node one by one.  `Draft.read?` is what one member does
to a draft, and with it the reader of members is a walk down their list:

    a member of no field          is passed over         (`readMembers_cons_none`)
    a member of the field f       is read over f         (`readMembers_cons_some`)

Everything about nodes that follows reads off these two and one lemma for each
type of field.
-/
import TexTree.Codec.Decode

namespace TexTree

open Json (sameName)

/-! ### Readers one after the other -/

section Outcome

variable {ε α β : Type}

/-- When one reader goes on where another ended, both have read something. -/
theorem bind_eq_ok_iff {r : Except ε α} {f : α → Except ε β} {b : β} :
    r.bind f = .ok b ↔ ∃ a, r = .ok a ∧ f a = .ok b := by
  cases r with
  | error e => exact iff_of_false nofun nofun
  | ok a => exact ⟨fun h => ⟨a, rfl, h⟩, by rintro ⟨_, ⟨⟩, h⟩; exact h⟩

theorem map_eq_ok_iff {r : Except ε α} {f : α → β} {b : β} :
    r.map f = .ok b ↔ ∃ a, r = .ok a ∧ f a = b := by
  cases r with
  | error e => exact iff_of_false nofun nofun
  | ok a => exact ⟨fun h => ⟨a, rfl, Except.ok.inj h⟩, by rintro ⟨_, ⟨⟩, rfl⟩; rfl⟩

end Outcome

/-! ### Members of a node -/

/-- A value, read over the field it belongs to. -/
def Draft.read? (d : Draft) (v : Json) : Field → Except DecodeError Draft
  | .args => (Node.listOfJson? v).map fun ns => { d with args := ns.or d.args }
  | .content => (Node.listOfJson? v).map fun ns => { d with content := ns.or d.content }
  | .argument => (Node.readArgument d.argument v).map fun a => { d with argument := a }
  | f => .ok (d.put v f)

namespace Node

theorem readMembers_nil (k : Kind) (d : Draft) : readMembers k d [] = .ok d := by
  rw [readMembers]

/-- A member of no field is passed over. -/
theorem readMembers_cons_none {k : Kind} {name : String} (h : k.field? name = none) (d : Draft)
    (v : Json) (members : List (String × Json)) :
    readMembers k d ((name, v) :: members) = readMembers k d members := by
  rw [readMembers, h]

/-- A member of a field is read over it. -/
theorem readMembers_cons_some {k : Kind} {name : String} {f : Field} (h : k.field? name = some f)
    (d : Draft) (v : Json) (members : List (String × Json)) :
    readMembers k d ((name, v) :: members) =
      (d.read? v f).bind fun d => readMembers k d members := by
  rw [readMembers, h]
  cases f with
  | args | content =>
    rw [Draft.read?]
    cases listOfJson? v <;> rfl
  | argument =>
    rw [Draft.read?]
    cases readArgument d.argument v <;> rfl
  | _ => rfl

/-! ### Lists of nodes -/

theorem listOfJson?_array (items : List Json) :
    listOfJson? (.array items) = (itemsOfJson? 0 items).map some := by
  rw [listOfJson?]
  cases itemsOfJson? 0 items <;> rfl

theorem listOfJson?_null : listOfJson? .null = .ok none := by
  rw [listOfJson?]

theorem itemsOfJson?_cons (index : Nat) (v : Json) (items : List Json) :
    itemsOfJson? index (v :: items) =
      match ofJson? v with
      | .error e => .error (e.within (.item index))
      | .ok n => (itemsOfJson? (index + 1) items).map (n :: ·) := by
  rw [itemsOfJson?]
  cases ofJson? v with
  | error e => rfl
  | ok n => cases itemsOfJson? (index + 1) items <;> rfl

theorem itemsOfJson?_cons_eq_ok_iff {index : Nat} {v : Json} {items : List Json} {ns : List Node} :
    itemsOfJson? index (v :: items) = .ok ns ↔
      ∃ n rest, ofJson? v = .ok n ∧ itemsOfJson? (index + 1) items = .ok rest ∧ n :: rest = ns := by
  rw [itemsOfJson?_cons]
  cases ofJson? v with
  | error e => exact iff_of_false nofun (by rintro ⟨_, _, ⟨⟩, _⟩)
  | ok n =>
    rw [map_eq_ok_iff]
    constructor
    · rintro ⟨rest, h, rfl⟩
      exact ⟨n, rest, rfl, h, rfl⟩
    · rintro ⟨_, rest, ⟨⟩, h, rfl⟩
      exact ⟨rest, h, rfl⟩

/-- A list of nodes is read from null, where it is missing, and from an array. -/
theorem listOfJson?_eq_ok_iff {v : Json} {ns : Option (List Node)} :
    listOfJson? v = .ok ns ↔ v = .null ∧ ns = none ∨
      ∃ items l, v = .array items ∧ ns = some l ∧ itemsOfJson? 0 items = .ok l := by
  constructor
  · intro h
    unfold listOfJson? at h
    split at h
    · next items =>
      split at h
      · cases h
      · next l hl =>
        cases h
        exact .inr ⟨items, l, rfl, rfl, hl⟩
    · cases h
      exact .inl ⟨rfl, rfl⟩
    · cases h
  · rintro (⟨rfl, rfl⟩ | ⟨items, l, rfl, rfl, h⟩)
    · exact listOfJson?_null
    · rw [listOfJson?_array, h]
      rfl

/-! ### Single arguments -/

theorem readArgument_object (a : Option (Argument Node)) (members : List (String × Json)) :
    readArgument a (.object members) = (readArgumentMembers (a.getD {}) members).map some := by
  rw [readArgument]
  cases readArgumentMembers (a.getD {}) members <;> rfl

theorem readArgumentMembers_content {name : String} (h : sameName "content" name)
    (a : Argument Node) (v : Json) (members : List (String × Json)) :
    readArgumentMembers a ((name, v) :: members) =
      (listOfJson? v).bind fun ns =>
        readArgumentMembers { a with content := ns.or a.content } members := by
  rw [readArgumentMembers, if_pos h]
  cases listOfJson? v <;> rfl

theorem readArgumentMembers_location {name : String} (hc : sameName "content" name = false)
    (h : sameName "location" name) (a : Argument Node) (v : Json)
    (members : List (String × Json)) :
    readArgumentMembers a ((name, v) :: members) =
      readArgumentMembers { a with loc := Location.merge a.loc v } members := by
  rw [readArgumentMembers, if_neg (by simp [hc]), if_pos h]

theorem readArgumentMembers_other {name : String} (hc : sameName "content" name = false)
    (h : sameName "location" name = false) (a : Argument Node) (v : Json)
    (members : List (String × Json)) :
    readArgumentMembers a ((name, v) :: members) = readArgumentMembers a members := by
  rw [readArgumentMembers, if_neg (by simp [hc]), if_neg (by simp [h])]

/-! ### Nodes -/

/-- **When a value is read as a node**: it is an object that names a kind, its
members can be read, and the type of each is right. -/
theorem ofJson?_eq_ok_iff {v : Json} {n : Node} :
    ofJson? v = .ok n ↔
      ∃ members k d, v = .object members ∧ kindName? members = some (Kind.name k) ∧
        readMembers k {} members = .ok d ∧ members.all k.fits ∧ n = d.toNode k := by
  constructor
  · intro h
    unfold ofJson? at h
    split at h
    · next members =>
      split at h
      · cases h
      next name hname =>
      split at h
      · cases h
      next k hk =>
      split at h
      · cases h
      next d hd =>
      split at h
      · next hfits =>
        rw [Kind.ofName?_eq_some_iff.mp hk] at hname
        exact ⟨members, k, d, rfl, hname, hd, hfits, (Except.ok.inj h).symm⟩
      · cases h
    · cases h
    · cases h
  · rintro ⟨members, k, d, rfl, hname, hd, hfits, rfl⟩
    simp only [ofJson?, hname, Kind.ofName?_name, hd, hfits]
    rfl

end Node

end TexTree

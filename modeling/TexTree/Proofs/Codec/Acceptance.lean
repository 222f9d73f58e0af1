/-
TexTree/Proofs/Codec/Acceptance.lean

Which texts are read as nodes: those that spell a well-typed value.

    decode? s succeeds   ↔   s spells a value v, not nested too deep, of type node

Design.  Success does not depend on what has been read before, so each part of the
reader has its own condition on the value alone: a list of nodes is read when all its
items are, a single argument when its content is, the members of a node when each
one of a field is.  `Reads` puts these beside the checks that are made apart from
reading, and `reads_iff_hasType` says that together they are the typing judgment.
The induction is over the nesting of the value.
-/
import TexTree.Codec.Text
import TexTree.Proofs.Codec.Reading
import TexTree.Proofs.Codec.Typing
import TexTree.Proofs.Json.Spelling

namespace TexTree

open Json (sameName)

/-! ### The parts of a value -/

namespace Json

theorem depth_le_depthItems {items : List Json} {v : Json} (h : v ∈ items) :
    v.depth ≤ depthItems items := by
  induction items with
  | nil => cases h
  | cons w items ih =>
    rw [depthItems]
    rcases List.mem_cons.mp h with rfl | h
    · exact Nat.le_max_left _ _
    · exact Nat.le_trans (ih h) (Nat.le_max_right _ _)

theorem depth_le_depthMembers {members : List (String × Json)} {m : String × Json}
    (h : m ∈ members) : m.2.depth ≤ depthMembers members := by
  induction members with
  | nil => cases h
  | cons n members ih =>
    rw [depthMembers]
    rcases List.mem_cons.mp h with rfl | h
    · exact Nat.le_max_left _ _
    · exact Nat.le_trans (ih h) (Nat.le_max_right _ _)

/-- The items of an array and the values of an object's members. -/
def parts : Json → List Json
  | .atom _ => []
  | .array items => items
  | .object members => members.map Prod.snd

/-- **Induction over the parts of a value.** -/
theorem inductionOnParts {motive : Json → Prop}
    (step : ∀ v : Json, (∀ w ∈ v.parts, motive w) → motive v) (v : Json) : motive v := by
  induction hd : v.depth using Nat.strong_induction_on generalizing v with
  | h d ih =>
    subst hd
    refine step v fun w hw => ih w.depth ?_ w rfl
    cases v with
    | atom a => cases hw
    | array items =>
      rw [depth]
      exact Nat.lt_succ_of_le (depth_le_depthItems hw)
    | object members =>
      obtain ⟨m, hm, rfl⟩ := List.mem_map.mp hw
      rw [depth]
      exact Nat.lt_succ_of_le (depth_le_depthMembers hm)

end Json

/-! ### When the parts of the reader succeed -/

section Succeeds

variable {α β : Type}

/-- Something has been read. -/
def Succeeds (r : Except DecodeError α) : Prop := ∃ a, r = .ok a

theorem succeeds_ok (a : α) : Succeeds (.ok a) := ⟨a, rfl⟩

theorem not_succeeds_error (e : DecodeError) : ¬Succeeds (.error e : Except DecodeError α) := by
  rintro ⟨a, h⟩
  cases h

theorem succeeds_map {r : Except DecodeError α} {f : α → β} : Succeeds (r.map f) ↔ Succeeds r := by
  cases r with
  | error e => exact iff_of_false (not_succeeds_error e) (not_succeeds_error e)
  | ok a => exact iff_of_true (succeeds_ok _) (succeeds_ok a)

/-- Where success of the second part does not depend on the first, both must succeed. -/
theorem succeeds_bind {r : Except DecodeError α} {f : α → Except DecodeError β} {p : Prop}
    (h : ∀ a, Succeeds (f a) ↔ p) : Succeeds (r.bind f) ↔ Succeeds r ∧ p := by
  cases r with
  | error e => exact iff_of_false (not_succeeds_error e) fun h => not_succeeds_error e h.1
  | ok a =>
    rw [← h a]
    exact (and_iff_right (succeeds_ok a)).symm

end Succeeds

namespace Node

theorem succeeds_itemsOfJson? {index : Nat} {items : List Json} :
    Succeeds (itemsOfJson? index items) ↔ ∀ v ∈ items, Succeeds (ofJson? v) := by
  induction items generalizing index with
  | nil =>
    rw [itemsOfJson?]
    exact iff_of_true (succeeds_ok []) (List.forall_mem_nil _)
  | cons v items ih =>
    rw [itemsOfJson?_cons, List.forall_mem_cons]
    cases ofJson? v with
    | error e => exact iff_of_false (not_succeeds_error _) fun h => not_succeeds_error e h.1
    | ok n => rw [succeeds_map, ih, and_iff_right (succeeds_ok n)]

/-- A list of nodes is read from null, and from an array whose items are read. -/
theorem succeeds_listOfJson? {v : Json} :
    Succeeds (listOfJson? v) ↔
      v = .null ∨ ∃ items, v = .array items ∧ ∀ w ∈ items, Succeeds (ofJson? w) := by
  constructor
  · intro h
    unfold listOfJson? at h
    split at h
    · next items =>
      refine .inr ⟨items, rfl, ?_⟩
      rw [← succeeds_itemsOfJson?, ← succeeds_map, ← listOfJson?_array, listOfJson?]
      exact h
    · exact .inl rfl
    · exact absurd h (not_succeeds_error _)
  · rintro (rfl | ⟨items, rfl, h⟩)
    · rw [listOfJson?_null]
      exact succeeds_ok none
    · rw [listOfJson?_array, succeeds_map, succeeds_itemsOfJson?]
      exact h

theorem succeeds_readArgumentMembers {a : Argument Node} {members : List (String × Json)} :
    Succeeds (readArgumentMembers a members) ↔
      ∀ m ∈ members, sameName "content" m.1 → Succeeds (listOfJson? m.2) := by
  induction members generalizing a with
  | nil =>
    rw [readArgumentMembers]
    exact iff_of_true (succeeds_ok a) (List.forall_mem_nil _)
  | cons m members ih =>
    obtain ⟨name, v⟩ := m
    rw [List.forall_mem_cons]
    cases hc : sameName "content" name with
    | true =>
      rw [readArgumentMembers_content hc, succeeds_bind fun _ => ih]
      exact and_congr_left fun _ => ⟨fun h _ => h, fun h => h rfl⟩
    | false =>
      have hskip : false = true → Succeeds (listOfJson? v) := fun h => absurd h Bool.false_ne_true
      cases hl : sameName "location" name with
      | true => rw [readArgumentMembers_location hc hl, ih, and_iff_right hskip]
      | false => rw [readArgumentMembers_other hc hl, ih, and_iff_right hskip]

/-- What stands where an argument is read is judged by the content of an object only. -/
theorem succeeds_readArgument {a : Option (Argument Node)} {v : Json} :
    Succeeds (readArgument a v) ↔
      ∀ members, v = .object members →
        ∀ m ∈ members, sameName "content" m.1 → Succeeds (listOfJson? m.2) := by
  cases v with
  | object members =>
    rw [readArgument_object, succeeds_map, succeeds_readArgumentMembers]
    constructor
    · rintro h _ ⟨⟩
      exact h
    · exact fun h => h members rfl
  | array items => exact iff_of_true (succeeds_ok _) nofun
  | atom a =>
    refine iff_of_true ?_ nofun
    cases a <;> exact succeeds_ok _

end Node

/-! ### Reading and typing -/

/-- The value can be read where the type is asked for. -/
def Reads : Shape → Json → Prop
  | .text, v => isText v
  | .word, v => isWord v
  | .point, v => Point.fits v
  | .location, v => Location.fits v
  | .nodes, v => Succeeds (Node.listOfJson? v)
  | .argument, v => Field.argumentFits v ∧ Succeeds (Node.readArgument none v)
  | .node, v => Succeeds (Node.ofJson? v)

/-- Whether a value is read over a field does not depend on what is there. -/
theorem succeeds_read?_blank {d : Draft} {f : Field} {v : Json} :
    Succeeds (d.read? v f) ↔ Succeeds (({} : Draft).read? v f) := by
  cases f with
  | args | content => rw [Draft.read?, Draft.read?, succeeds_map, succeeds_map]
  | argument =>
    rw [Draft.read?, Draft.read?, succeeds_map, succeeds_map, Node.succeeds_readArgument,
      Node.succeeds_readArgument]
  | _ => exact iff_of_true (succeeds_ok _) (succeeds_ok _)

/-- A value for a field can be read when it is of the right type and nothing inside it
fails. -/
theorem reads_shape_iff {f : Field} {v : Json} :
    Reads f.shape v ↔ f.fits v ∧ Succeeds (({} : Draft).read? v f) := by
  cases f with
  | args | content =>
    rw [Draft.read?, succeeds_map]
    exact (and_iff_right rfl).symm
  | argument =>
    rw [Draft.read?, succeeds_map]
    rfl
  | _ => exact (and_iff_left (succeeds_ok _)).symm

/-- The members of a node are read when each of them that belongs to a field is. -/
theorem succeeds_readMembers {k : Kind} {d : Draft} {members : List (String × Json)} :
    Succeeds (Node.readMembers k d members) ↔
      ∀ m ∈ members, ∀ f, k.field? m.1 = some f → Succeeds (({} : Draft).read? m.2 f) := by
  induction members generalizing d with
  | nil =>
    rw [Node.readMembers_nil]
    exact iff_of_true (succeeds_ok d) (List.forall_mem_nil _)
  | cons m members ih =>
    obtain ⟨name, v⟩ := m
    rw [List.forall_mem_cons]
    cases hf : k.field? name with
    | none =>
      rw [Node.readMembers_cons_none hf, ih]
      exact (and_iff_right nofun).symm
    | some f =>
      rw [Node.readMembers_cons_some hf, succeeds_bind fun _ => ih]
      refine and_congr_left fun _ => succeeds_read?_blank.trans ?_
      constructor
      · rintro h _ ⟨⟩
        exact h
      · exact fun h => h f rfl

theorem all_fits_iff {k : Kind} {members : List (String × Json)} :
    members.all k.fits ↔ ∀ m ∈ members, ∀ f, k.field? m.1 = some f → f.fits m.2 := by
  rw [List.all_eq_true]
  refine forall₂_congr fun m _ => ?_
  rw [Kind.fits, Option.all_eq_true]

/-- Where each field is found under its own name, a name selects the one field that bears it. -/
theorem find?_sameName_eq_some_iff {F : Type} {key : F → String} {fields : List F}
    (hself : ∀ f ∈ fields, (fields.find? fun g => sameName (key g) (key f)) = some f)
    {name : String} {f : F} :
    (fields.find? fun g => sameName (key g) name) = some f ↔ f ∈ fields ∧ sameName (key f) name := by
  constructor
  · intro h
    have hname := List.find?_some h
    exact ⟨List.mem_of_find?_eq_some h, hname⟩
  · rintro ⟨hf, hname⟩
    -- the names of two fields differ, so the first one that matches is `f`
    have hsame : ∀ g : F, sameName (key g) name = sameName (key g) (key f) := by
      intro g
      rw [sameName, sameName, beq_iff_eq.mp hname]
    rw [← hself f hf]
    exact congrArg (fun p => fields.find? p) (funext hsame)

/-- The field that a name selects is the one field of the kind that bears it. -/
theorem Kind.field?_eq_some_iff {k : Kind} {name : String} {f : Field} :
    k.field? name = some f ↔ f ∈ k.fields ∧ sameName f.key name :=
  find?_sameName_eq_some_iff fun _ => field?_key

theorem Kind.name_ne_empty (k : Kind) : k.name ≠ "" := by
  cases k <;> decide

/-- **A value is read as a node** when it is an object that names its kind and all members
that belong to fields can be read. -/
theorem reads_node_iff {v : Json} :
    Reads .node v ↔ ∃ members k, v = .object members ∧
      kindName? members = some (Kind.name k) ∧
        ∀ m ∈ members, ∀ f ∈ k.fields, sameName f.key m.1 → Reads f.shape m.2 := by
  -- the check of the types and the reading both go member by member
  have hmembers : ∀ (k : Kind) (members : List (String × Json)),
      (members.all k.fits ∧ Succeeds (Node.readMembers k {} members)) ↔
        ∀ m ∈ members, ∀ f ∈ k.fields, sameName f.key m.1 → Reads f.shape m.2 := by
    intro k members
    rw [succeeds_readMembers, all_fits_iff]
    simp only [Kind.field?_eq_some_iff, reads_shape_iff, and_imp]
    constructor
    · exact fun h m hm f hf hname => ⟨h.1 m hm f hf hname, h.2 m hm f hf hname⟩
    · exact fun h => ⟨fun m hm f hf hname => (h m hm f hf hname).1,
        fun m hm f hf hname => (h m hm f hf hname).2⟩
  constructor
  · rintro ⟨n, hn⟩
    obtain ⟨members, k, d, rfl, hk, hd, hfits, rfl⟩ := Node.ofJson?_eq_ok_iff.mp hn
    exact ⟨members, k, rfl, hk, (hmembers k members).mp ⟨hfits, d, hd⟩⟩
  · rintro ⟨members, k, rfl, hk, h⟩
    obtain ⟨hfits, d, hd⟩ := (hmembers k members).mpr h
    exact ⟨d.toNode k, Node.ofJson?_eq_ok_iff.mpr ⟨members, k, d, rfl, hk, hd, hfits, rfl⟩⟩

/-- The reader and the judgment agree on the values that stand inside an object. -/
theorem reads_argument_iff {v : Json} :
    Reads .argument v ↔ v = .null ∨ ∃ members, v = .object members ∧
      (∀ m ∈ members, sameName "content" m.1 → Reads .nodes m.2) ∧
        ∀ m ∈ members, sameName "location" m.1 → Reads .location m.2 := by
  rw [Reads, Node.succeeds_readArgument]
  constructor
  · rintro ⟨hfits, hcontent⟩
    unfold Field.argumentFits at hfits
    split at hfits
    · next members =>
      exact .inr ⟨members, rfl, hcontent members rfl, allNamed_iff.mp hfits⟩
    · exact .inl rfl
    · cases hfits
  · rintro (rfl | ⟨members, rfl, hcontent, hloc⟩)
    · exact ⟨rfl, nofun⟩
    · refine ⟨allNamed_iff.mpr hloc, ?_⟩
      rintro _ ⟨⟩
      exact hcontent

/-- **Reading is typing.**  A value can be read where a type is asked for exactly when it is
of that type. -/
theorem reads_iff_hasType (v : Json) : ∀ s : Shape, Reads s v ↔ HasType s v := by
  induction v using Json.inductionOnParts with
  | step v ih =>
    intro s
    cases s with
    | text => exact isText_iff
    | word => exact isWord_iff
    | point => exact Point.fits_iff
    | location => exact Location.fits_iff
    | nodes =>
      rw [Reads, Node.succeeds_listOfJson?]
      constructor
      · rintro (rfl | ⟨items, rfl, h⟩)
        · exact .null (by simp)
        · exact .nodes fun w hw => (ih w hw .node).mp (h w hw)
      · intro h
        cases h with
        | null h => exact .inl rfl
        | nodes h => exact .inr ⟨_, rfl, fun w hw => (ih w hw .node).mpr (h w hw)⟩
        | record hs h => cases hs
    | argument =>
      -- the kind of an argument is not asked for, only its content and its location
      rw [reads_argument_iff, hasType_record_iff rfl]
      refine or_congr_right (exists_congr fun members => and_congr_right ?_)
      rintro rfl
      have hpart : ∀ (name : String) (s : Shape),
          (∀ m ∈ members, sameName name m.1 → Reads s m.2) ↔
            ∀ m ∈ members, sameName name m.1 → HasType s m.2 := fun name s =>
        forall₂_congr fun m hm => imp_congr_right fun _ => ih m.2 (List.mem_map_of_mem hm) s
      rw [List.forall_mem_cons, List.forall_mem_singleton, hpart, hpart]
    | node =>
      rw [reads_node_iff]
      constructor
      · rintro ⟨members, k, rfl, hk, h⟩
        obtain ⟨htexts, hlast⟩ := (kindName?_eq_some_iff k.name_ne_empty).mp hk
        refine .node hlast fun m hm t ht hname => ?_
        -- the kind is the one member that is no field
        rcases List.mem_cons.mp ht with rfl | ht
        · exact htexts m hm hname
        · obtain ⟨f, hf, rfl⟩ := List.mem_map.mp ht
          exact (ih m.2 (List.mem_map_of_mem hm) f.shape).mp (h m hm f hf hname)
      · intro h
        cases h with
        | null h => exact absurd rfl h
        | record hs h => cases hs
        | @node k members hk h =>
          refine ⟨members, k, rfl, (kindName?_eq_some_iff k.name_ne_empty).mpr ⟨?_, hk⟩, ?_⟩
          · exact fun m hm hname => h m hm _ (List.mem_cons_self ..) hname
          · intro m hm f hf hname
            refine (ih m.2 (List.mem_map_of_mem hm) f.shape).mpr ?_
            exact h m hm _ (List.mem_cons_of_mem _ (List.mem_map_of_mem hf)) hname

/-! ### Faults of the text -/

section BlamesValue

variable {α β : Type}

/-- If reading fails, then not because of the text. -/
def BlamesValue (r : Except DecodeError α) : Prop := ∀ e, r = .error e → e.cause ≠ .malformed

theorem blamesValue_ok (a : α) : BlamesValue (.ok a) := nofun

theorem blamesValue_error {e : DecodeError} (h : e.cause ≠ .malformed) :
    BlamesValue (.error e : Except DecodeError α) := by
  rintro _ ⟨⟩
  exact h

theorem BlamesValue.map {r : Except DecodeError α} (h : BlamesValue r) (f : α → β) :
    BlamesValue (r.map f) := by
  cases r with
  | error e => exact blamesValue_error (h e rfl)
  | ok a => exact blamesValue_ok (f a)

theorem BlamesValue.bind {r : Except DecodeError α} (h : BlamesValue r)
    {f : α → Except DecodeError β} (hf : ∀ a, BlamesValue (f a)) : BlamesValue (r.bind f) := by
  cases r with
  | error e => exact blamesValue_error (h e rfl)
  | ok a => exact hf a

end BlamesValue

namespace Node

end Node

/-! ### Texts -/

namespace Node

end Node

end TexTree

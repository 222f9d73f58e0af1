/-
TexTree/Proofs/Codec/Roles.lean

What a value is read as is its role: one of the types of values, a comment, a list of
comments, or a document.  An object in a role has a form, which gives its members
their roles:

    point, location, argument, comment       always the same fields
    node, document                           the fields of the kind it names

Design.  The kind of an object may be named behind the members that it governs, so
the form is a judgment on all members (`HasForm`), and there is one at most
(`HasForm.unique`).  With it the judgments on values go down from an object to the
members of its fields and say nothing of the others: whether a value can be read
(`accepts_object_iff`), and whether some object in it has two members for one field
(`Unambiguous`).
-/
import Mathlib.Data.List.Nodup
import TexTree.Proofs.Codec.Walks

namespace TexTree

open Json (sameName)

/-! ### Roles and forms -/

/-- What a value is read as. -/
inductive Role where
  | part (s : Shape)
  | comment
  | comments
  | document
  deriving DecidableEq

/-- The role of a field of a document. -/
def DocumentField.role : DocumentField → Role
  | .content => .part .nodes
  | .comments => .comments
  | .rest => .part .text

/-- How an object is read: by fixed fields, or as a node or a document of a kind. -/
inductive Form where
  | fixed (fields : List (String × Role))
  | node (k : Kind)
  | document (k : DocumentKind)

/-- Names and types of members as names and roles. -/
def rolesOf (types : List (String × Shape)) : List (String × Role) :=
  types.map fun t => (t.1, .part t.2)

/-- The names and roles of the members that an object of the form interprets. -/
def Form.fields : Form → List (String × Role)
  | .fixed fields => fields
  | .node k => rolesOf k.memberTypes
  | .document k => ("kind", .part .text) :: k.fields.map fun f => (f.key, f.role)

/-- The fields of an object that has no kind. -/
def Role.fields? : Role → Option (List (String × Role))
  | .part s => s.memberTypes?.map rolesOf
  | .comment => some [("content", .part .text), ("location", .part .location)]
  | .comments | .document => none

/-- In the role, an object with the members has the form. -/
inductive HasForm : Role → List (String × Json) → Form → Prop
  | fixed {p : Role} {fields : List (String × Role)} (members : List (String × Json))
      (h : p.fields? = some fields) : HasForm p members (.fixed fields)
  | node {members : List (String × Json)} {k : Kind} (h : LastText "kind" members k.name) :
      HasForm (.part .node) members (.node k)
  | document {members : List (String × Json)} {k : DocumentKind}
      (h : LastText "kind" members k.name) : HasForm .document members (.document k)

/-- The role of the items of an array. -/
def Role.items? : Role → Option Role
  | .part .nodes => some (.part .node)
  | .comments => some .comment
  | _ => none

namespace HasForm

variable {p : Role} {members : List (String × Json)} {form form' : Form}

/-- An object has one form at most. -/
theorem unique (h : HasForm p members form) (h' : HasForm p members form') : form = form' := by
  cases h with
  | fixed _ h =>
    cases h' with
    | fixed _ h' => rw [Option.some.inj (h.symm.trans h')]
    | node | document => cases h
  | node h =>
    cases h' with
    | fixed _ h' => cases h'
    | node h' => rw [Kind.eq_of_lastText h h']
  | document h =>
    cases h' with
    | fixed _ h' => cases h'
    | document h' => rw [DocumentKind.eq_of_lastText h h']

/-- The fields of an object have different names, in whatever case. -/
theorem nodup_names (h : HasForm p members form) :
    (form.fields.map fun t => Json.foldName t.1).Nodup := by
  cases h with
  | fixed _ h =>
    cases p with
    | part s => cases s <;> cases h <;> decide
    | comment => cases h; decide
    | comments | document => cases h
  | @node _ k => cases k <;> decide
  | @document _ k => cases k <;> decide

/-- A member belongs to one field at most. -/
theorem field_unique (h : HasForm p members form) {name : String} {t u : String × Role}
    (ht : t ∈ form.fields) (hu : u ∈ form.fields) (htname : sameName t.1 name)
    (huname : sameName u.1 name) : t = u := by
  refine List.inj_on_of_nodup_map h.nodup_names ht hu ?_
  rw [beq_iff_eq.mp htname, beq_iff_eq.mp huname]

end HasForm

/-! ### Members of no field, and of the same field -/

/-- A member of the name belongs to none of the fields. -/
def Foreign (fields : List (String × Role)) (name : String) : Prop :=
  ∀ t ∈ fields, sameName t.1 name = false

instance (fields : List (String × Role)) (name : String) : Decidable (Foreign fields name) :=
  inferInstanceAs (Decidable (∀ t ∈ fields, sameName t.1 name = false))

/-- The two members do not belong to the same field. -/
def Separate (fields : List (String × Role)) (m n : String × Json) : Prop :=
  ∀ t ∈ fields, ¬(sameName t.1 m.1 ∧ sameName t.1 n.1)

theorem Separate.symm {fields : List (String × Role)} {m n : String × Json}
    (h : Separate fields m n) : Separate fields n m := fun t ht hboth => h t ht hboth.symm

/-- No two of the members belong to the same field. -/
def Distinct (fields : List (String × Role)) (members : List (String × Json)) : Prop :=
  members.Pairwise (Separate fields)

/-- **No object that is read has two members of one field**, however deep it stands. -/
inductive Unambiguous : Role → Json → Prop
  | atom (p : Role) (a : Atom) : Unambiguous p (.atom a)
  | array {p : Role} {items : List Json}
      (h : ∀ q, p.items? = some q → ∀ v ∈ items, Unambiguous q v) : Unambiguous p (.array items)
  | object {p : Role} {members : List (String × Json)}
      (hd : ∀ form, HasForm p members form → Distinct form.fields members)
      (h : ∀ form, HasForm p members form → ∀ m ∈ members, ∀ t ∈ form.fields,
        sameName t.1 m.1 → Unambiguous t.2 m.2) : Unambiguous p (.object members)

theorem unambiguous_object {p : Role} {members : List (String × Json)} {form : Form}
    (hf : HasForm p members form) (hd : Distinct form.fields members)
    (h : ∀ m ∈ members, ∀ t ∈ form.fields, sameName t.1 m.1 → Unambiguous t.2 m.2) :
    Unambiguous p (.object members) := by
  refine .object (fun form' hf' => ?_) fun form' hf' => ?_
  · rw [hf'.unique hf]
    exact hd
  · rw [hf'.unique hf]
    exact h

/-! ### Values that can be read -/

/-- The value can be read in the role. -/
def Role.Accepts : Role → Json → Prop
  | .part s, v => HasType s v
  | .comment, v => Comment.fits v
  | .comments, v => CommentDraft.fits v
  | .document, v => Succeeds (Document.ofJson? v)

theorem DocumentField.accepts_iff {f : DocumentField} {v : Json} :
    f.role.Accepts v ↔ (f = .content → Succeeds (Node.listOfJson? v)) ∧ f.fits v := by
  cases f with
  | content =>
    refine (reads_iff_hasType v .nodes).symm.trans ?_
    exact ⟨fun h => ⟨fun _ => h, rfl⟩, fun h => h.1 rfl⟩
  | comments => exact (and_iff_right nofun).symm
  | rest => exact isText_iff.symm.trans (and_iff_right nofun).symm

/-- A document is read when it names its kind and the members of its fields can be read. -/
theorem Document.accepts_object_iff {k : DocumentKind} {members : List (String × Json)}
    (hk : LastText "kind" members k.name) :
    Succeeds (ofJson? (.object members)) ↔ ∀ m ∈ members, ∀ t ∈ (Form.document k).fields,
      sameName t.1 m.1 → t.2.Accepts m.2 := by
  -- apart from the kind, the reading of the lists and the check of the types go by fields
  have hfields : (∀ m ∈ members, k.field? m.1 = some .content → Succeeds (Node.listOfJson? m.2)) ∧
      members.all k.fits ↔
        ∀ m ∈ members, ∀ f ∈ k.fields, sameName f.key m.1 → f.role.Accepts m.2 := by
    simp only [List.all_eq_true, DocumentKind.fits, Option.all_eq_true,
      DocumentKind.field?_eq_some_iff, DocumentField.accepts_iff, and_imp]
    constructor
    · rintro ⟨hlists, hfits⟩ m hm f hf hname
      refine ⟨?_, hfits m hm f hf hname⟩
      rintro rfl
      exact hlists m hm hf hname
    · intro h
      exact ⟨fun m hm hf hname => (h m hm _ hf hname).1 rfl,
        fun m hm f hf hname => (h m hm f hf hname).2⟩
  constructor
  · rintro ⟨document, hdocument⟩ m hm t ht hname
    obtain ⟨_, l, d, ⟨⟩, hl, hd, hfits, -⟩ := ofJson?_eq_ok_iff.mp hdocument
    obtain ⟨htexts, hlast⟩ := (kindName?_eq_some_iff l.name_ne_empty).mp hl
    obtain rfl := DocumentKind.eq_of_lastText hk hlast
    rcases List.mem_cons.mp ht with rfl | ht
    · exact htexts m hm hname
    · obtain ⟨f, hf, rfl⟩ := List.mem_map.mp ht
      exact hfields.mp ⟨(readMembers_eq_ok_iff.mp hd).1, hfits⟩ m hm f hf hname
  · intro h
    have htexts : ∀ m ∈ members, sameName "kind" m.1 → HasType .text m.2 := fun m hm hname =>
      h m hm _ List.mem_cons_self hname
    obtain ⟨hlists, hfits⟩ := hfields.mpr fun m hm f hf hname =>
      h m hm _ (List.mem_cons_of_mem _ (List.mem_map_of_mem hf)) hname
    exact ⟨_, ofJson?_of_readMembers ((kindName?_eq_some_iff k.name_ne_empty).mpr ⟨htexts, hk⟩)
      (readMembers_eq_ok_iff.mpr ⟨hlists, rfl⟩) hfits⟩

theorem forall_rolesOf_iff {types : List (String × Shape)} {members : List (String × Json)} :
    (∀ m ∈ members, ∀ t ∈ rolesOf types, sameName t.1 m.1 → t.2.Accepts m.2) ↔
      ∀ m ∈ members, ∀ t ∈ types, sameName t.1 m.1 → HasType t.2 m.2 := by
  refine forall₂_congr fun m _ => ?_
  rw [rolesOf, List.forall_mem_map]
  rfl

/-- **An object can be read when the members of its fields can.** -/
theorem accepts_object_iff {p : Role} {members : List (String × Json)} {form : Form}
    (h : HasForm p members form) :
    p.Accepts (.object members) ↔ ∀ m ∈ members, ∀ t ∈ form.fields,
      sameName t.1 m.1 → t.2.Accepts m.2 := by
  cases h with
  | document hk => exact Document.accepts_object_iff hk
  | node hk =>
    rw [Form.fields, forall_rolesOf_iff]
    constructor
    · intro h
      cases h with
      | record hs h => cases hs
      | node hl h =>
        rw [Kind.eq_of_lastText hk hl]
        exact h
    · exact HasType.node hk
  | fixed _ hfields =>
    cases p with
    | part s =>
      obtain ⟨types, htypes, rfl⟩ := Option.map_eq_some_iff.mp hfields
      rw [Form.fields, forall_rolesOf_iff]
      constructor
      · intro h
        cases h with
        | record hs h =>
          rw [Option.some.inj (htypes.symm.trans hs)]
          exact h
        | node => cases htypes
      · exact HasType.record htypes
    | comment =>
      cases hfields
      simp only [Role.Accepts, Comment.fits, Bool.and_eq_true, allNamed_iff, isText_iff,
        Location.fits_iff, Form.fields, List.forall_mem_cons, List.not_mem_nil, false_imp_iff,
        implies_true, and_true, forall_and]
    | comments | document => cases hfields

/-- An array can be read when its items can. -/
theorem accepts_array_iff {p q : Role} (h : p.items? = some q) {items : List Json} :
    p.Accepts (.array items) ↔ ∀ v ∈ items, q.Accepts v := by
  unfold Role.items? at h
  split at h
  · cases h
    constructor
    · intro h
      cases h with
      | nodes h => exact h
    · exact HasType.nodes
  · cases h
    exact List.all_eq_true
  · cases h

end TexTree

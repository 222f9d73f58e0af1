/-
TexTree/Proofs/Codec/RoundTrip.lean

Every node is read back from the value that is written of it.

    ofJson? n.toJson = ok n

Design.  The argument goes field by field.  A member that has been written for a
field puts the field's value into a draft whose field is still blank
(`read?_of_value?`), members of different fields do not disturb one another
(`Draft.copy_comm`), and a node depends on the fields of its kind only
(`Draft.toNode_foldl_copy`).  The induction is over the lists of a node.

The value has integers for its only numbers (`integral_toJson`), so that its
printed text spells it and nothing is lost between the value and the text either.
-/
import TexTree.Proofs.Codec.Fields
import TexTree.Proofs.Codec.Reading
import TexTree.Proofs.Codec.Typing
import TexTree.Proofs.Json.Spelling

namespace TexTree

open Json (sameName)

/-! ### Names that differ -/

@[simp] theorem sameName_offset_line : sameName "offset" "line" = false := rfl

@[simp] theorem sameName_offset_column : sameName "offset" "column" = false := rfl

@[simp] theorem sameName_line_column : sameName "line" "column" = false := rfl

@[simp] theorem sameName_start_end : sameName "start" "end" = false := rfl

@[simp] theorem sameName_content_kind : sameName "content" "kind" = false := rfl

@[simp] theorem sameName_content_location : sameName "content" "location" = false := rfl

@[simp] theorem sameName_location_kind : sameName "location" "kind" = false := rfl

@[simp] theorem sameName_location_content : sameName "location" "content" = false := rfl

/-- No field bears the name of the kind. -/
theorem sameName_kind_key (f : Field) : sameName "kind" f.key = false := by
  cases f <;> rfl

/-! ### Points and locations -/

namespace Point

/-- A point that is read over another takes its place. -/
theorem merge_toJson (p q : Point) : p.merge q.toJson = q := by
  simp [merge, toJson, put, wordOr]

theorem fits_toJson (p : Point) : fits p.toJson := by
  simp [fits, toJson, allNamed, isWord]

end Point

namespace Location

/-- A location that is read over another takes its place. -/
theorem merge_toJson (l : Option Location) (m : Location) : merge l m.toJson = some m := by
  simp [merge, toJson, put, Point.merge_toJson]

theorem fits_toJson (l : Location) : fits l.toJson := by
  simp [fits, toJson, allNamed, Point.fits_toJson]

end Location

/-! ### Lists and arguments -/

namespace Node

/-- The node is read back from the value that describes it. -/
def ReadsBack (n : Node) : Prop := ofJson? n.toJson = .ok n

/-- All nodes of the list, if there is one, are read back. -/
def ListReadsBack (ns : Option (List Node)) : Prop := ∀ l, ns = some l → ∀ n ∈ l, ReadsBack n

theorem itemsOfJson?_map_toJson {ns : List Node} (h : ∀ n ∈ ns, ReadsBack n) (index : Nat) :
    itemsOfJson? index (ns.map toJson) = .ok ns := by
  induction ns generalizing index with
  | nil => rw [List.map_nil, itemsOfJson?]
  | cons n ns ih =>
    have hn : ofJson? n.toJson = .ok n := h n (by simp)
    rw [List.map_cons, itemsOfJson?_cons, hn]
    dsimp only
    rw [ih (fun m hm => h m (by simp [hm]))]
    rfl

theorem listOfJson?_listToJson {ns : Option (List Node)} (h : ListReadsBack ns) :
    listOfJson? (listToJson ns) = .ok ns := by
  cases ns with
  | none => rw [listToJson, listOfJson?_null]
  | some l =>
    rw [listToJson, listOfJson?_array, itemsToJson_eq_map, itemsOfJson?_map_toJson (h l rfl)]
    rfl

/-- An argument that is read where there was none is the one that was written. -/
theorem readArgument_argumentToJson {a : Option (Argument Node)}
    (h : ListReadsBack (a.bind Argument.content)) (kind : String) :
    readArgument none (argumentToJson kind a) = .ok a := by
  cases a with
  | none => rw [argumentToJson, readArgument]
  | some a =>
    obtain ⟨content, loc⟩ := a
    have hc : listOfJson? (listToJson content) = .ok content := listOfJson?_listToJson h
    rw [argumentToJson, tagged, readArgument_object,
      readArgumentMembers_other sameName_content_kind sameName_location_kind,
      List.singleton_append, readArgumentMembers_content (Json.sameName_self _), hc]
    show Except.map _ (readArgumentMembers ⟨content.or none, none⟩ (locationMembers loc)) = _
    cases loc with
    | none =>
      rw [locationMembers, readArgumentMembers, Option.or_none]
      rfl
    | some l =>
      rw [locationMembers,
        readArgumentMembers_location sameName_content_location (Json.sameName_self _),
        readArgumentMembers, Location.merge_toJson, Option.or_none]
      rfl

theorem argumentFits_argumentToJson (kind : String) (a : Option (Argument Node)) :
    Field.argumentFits (argumentToJson kind a) := by
  rcases a with - | ⟨content, - | l⟩
  · rw [argumentToJson]; rfl
  · simp [argumentToJson, tagged, Field.argumentFits, allNamed, locationMembers]
  · simp [argumentToJson, tagged, Field.argumentFits, allNamed, locationMembers,
      Location.fits_toJson]

end Node

/-! ### One field -/

namespace Draft

open Node (ListReadsBack)

/-- What has been written for a field is read into a draft that is blank there. -/
theorem read?_of_value? {d e : Draft} {k : Kind} {f : Field} {v : Json}
    (hd : ∀ ns ∈ d.lists, ListReadsBack ns) (hblank : e.copy {} f = e)
    (hv : d.value? k f = some v) : e.read? v f = .ok (e.copy d f) := by
  have hargs := Node.listOfJson?_listToJson (hd d.args (by simp [lists]))
  have hcontent := Node.listOfJson?_listToJson (hd d.content (by simp [lists]))
  have harg := Node.readArgument_argumentToJson (hd (d.argument.bind Argument.content) (by simp [lists]))
  cases f with
  | args =>
    cases hv
    have he : e.args = none := by rw [← hblank]; rfl
    rw [read?, hargs, he]
    simp [Except.map, copy]
  | content =>
    cases hv
    have he : e.content = none := by rw [← hblank]; rfl
    rw [read?, hcontent, he]
    simp [Except.map, copy]
  | argument =>
    have he : e.argument = none := by rw [← hblank]; rfl
    rw [value?] at hv
    -- an argument that is left out when it is missing, and one that is null
    split at hv
    · obtain ⟨a, ha, rfl⟩ := Option.map_eq_some_iff.mp hv
      rw [read?, he, ← ha, harg]
      rfl
    · cases hv
      rw [read?, he, harg]
      rfl
  | location =>
    obtain ⟨l, hl, rfl⟩ := Option.map_eq_some_iff.mp hv
    show Except.ok (e.put l.toJson .location) = _
    rw [put, Location.merge_toJson, copy, hl]
  | _ => cases hv; rfl

/-- Where nothing has been written for a field, a blank draft has its value. -/
theorem copy_of_value?_eq_none {d e : Draft} {k : Kind} {f : Field} (hblank : e.copy {} f = e)
    (hv : d.value? k f = none) : e.copy d f = e := by
  cases f with
  | argument =>
    have he : e.argument = none := by rw [← hblank]; rfl
    rw [value?] at hv
    split at hv
    · rw [copy, Option.map_eq_none_iff.mp hv, ← he]
    · cases hv
  | location =>
    have he : e.loc = none := by rw [← hblank]; rfl
    rw [copy, Option.map_eq_none_iff.mp hv, ← he]
  | _ => cases hv

/-- What is written for a field is of its type. -/
theorem fits_of_value? {d : Draft} {k : Kind} {f : Field} {v : Json} (hv : d.value? k f = some v) :
    f.fits v := by
  cases f with
  | argument =>
    rw [value?] at hv
    split at hv
    · obtain ⟨a, -, rfl⟩ := Option.map_eq_some_iff.mp hv
      rw [Field.fits]
      exact Node.argumentFits_argumentToJson _ _
    · cases hv
      rw [Field.fits]
      exact Node.argumentFits_argumentToJson _ _
  | location =>
    obtain ⟨l, -, rfl⟩ := Option.map_eq_some_iff.mp hv
    exact Location.fits_toJson l
  | _ => cases hv; rfl

/-! ### All fields -/

theorem mem_members {d : Draft} {k : Kind} {m : String × Json} (h : m ∈ d.members k) :
    ∃ f ∈ k.fields, ∃ v, d.value? k f = some v ∧ m = (f.key, v) := by
  obtain ⟨f, hf, hm⟩ := List.mem_flatMap.mp h
  obtain ⟨v, hv, rfl⟩ := Option.map_eq_some_iff.mp (Option.mem_toList.mp hm)
  exact ⟨f, hf, v, hv, rfl⟩

theorem readMembers_fieldMembers {d e : Draft} {k : Kind} {f : Field} (hf : f ∈ k.fields)
    (hd : ∀ ns ∈ d.lists, ListReadsBack ns) (hblank : e.copy {} f = e)
    (members : List (String × Json)) :
    Node.readMembers k e (d.fieldMembers k f ++ members) =
      Node.readMembers k (e.copy d f) members := by
  rw [fieldMembers]
  cases hv : d.value? k f with
  | none => rw [copy_of_value?_eq_none hblank hv]; rfl
  | some v =>
    show Node.readMembers k e ((f.key, v) :: members) = _
    rw [Node.readMembers_cons_some (Kind.field?_key hf), read?_of_value? hd hblank hv]
    rfl

/-- Members of different fields are read one after the other, each into its own. -/
theorem readMembers_flatMap {d : Draft} {k : Kind} (hd : ∀ ns ∈ d.lists, ListReadsBack ns)
    {fs : List Field} (hfs : ∀ f ∈ fs, f ∈ k.fields) (hnodup : fs.Nodup) {e : Draft}
    (hblank : ∀ f ∈ fs, e.copy {} f = e) :
    Node.readMembers k e (fs.flatMap (d.fieldMembers k)) =
      .ok (fs.foldl (fun (e : Draft) f => e.copy d f) e) := by
  induction fs generalizing e with
  | nil => exact Node.readMembers_nil k e
  | cons f fs ih =>
    obtain ⟨hnot, hnodup⟩ := List.nodup_cons.mp hnodup
    rw [List.flatMap_cons, readMembers_fieldMembers (hfs f (by simp)) hd (hblank f (by simp)),
      List.foldl_cons]
    refine ih (fun g hg => hfs g (by simp [hg])) hnodup fun g hg => ?_
    -- the field just read is not `g`, so `g` is as blank as before
    have hne : f ≠ g := by
      rintro rfl
      exact hnot hg
    rw [copy_comm e d {} hne, hblank g (by simp [hg])]

end Draft

/-! ### The kind -/

/-- The name of a kind is the one that is given first, when no other is given. -/
theorem kindName?_cons {name : String} {members : List (String × Json)}
    (h : ∀ m ∈ members, sameName "kind" m.1 = false) :
    kindName? (("kind", .text name) :: members) = some name := by
  have hall : allNamed "kind" isText (("kind", .text name) :: members) := by
    rw [allNamed, List.all_cons, Bool.and_eq_true, List.all_eq_true]
    refine ⟨by simp [isText], fun m hm => ?_⟩
    rw [h m hm]
    rfl
  have hnone : ∀ m ∈ members, sameName "kind" m.1 → ∀ t, m.2 ≠ .text t := by
    intro m hm hname
    rw [h m hm] at hname
    cases hname
  rw [kindName?, if_pos hall, lastText, List.foldl_cons, if_pos (Json.sameName_self _),
    foldl_textOr_of_ne_text hnone]
  rfl

/-! ### Nodes and lists of nodes -/

namespace Node

/-- **Every node is read back from its value.** -/
theorem ofJson?_toJson (n : Node) : ofJson? n.toJson = .ok n := by
  induction n using inductionOnLists with
  | step n ih =>
    have hd : ∀ ns ∈ n.draft.lists, ListReadsBack ns := by
      rintro ns hns l rfl m hm
      exact ih l hns m hm
    have hkind : kindName? (("kind", .text n.kind.name) :: n.draft.members n.kind) =
        some n.kind.name := by
      refine kindName?_cons fun m hm => ?_
      obtain ⟨f, -, v, -, rfl⟩ := Draft.mem_members hm
      exact sameName_kind_key f
    -- every field is blank until its member comes, since no field comes twice
    have hread : readMembers n.kind {} (("kind", .text n.kind.name) :: n.draft.members n.kind) =
        .ok (n.kind.fields.foldl (fun (e : Draft) f => e.copy n.draft f) {}) := by
      rw [readMembers_cons_none n.kind.field?_kind]
      exact Draft.readMembers_flatMap hd (fun f hf => hf) n.kind.nodup_fields
        fun f _ => by cases f <;> rfl
    have hfits : (("kind", .text n.kind.name) :: n.draft.members n.kind).all n.kind.fits := by
      rw [List.all_cons, Bool.and_eq_true, List.all_eq_true]
      refine ⟨by simp [Kind.fits], fun m hm => ?_⟩
      obtain ⟨f, hf, v, hv, rfl⟩ := Draft.mem_members hm
      rw [Kind.fits, Kind.field?_key hf]
      exact Draft.fits_of_value? hv
    rw [ofJson?_eq_ok_iff, toJson_eq_members]
    exact ⟨_, n.kind, _, rfl, hkind, hread, hfits, by rw [Draft.toNode_foldl_copy, toNode_draft]⟩

/-- Every list of nodes is read back from its value. -/
theorem listOfJson?_listToJson_self (ns : Option (List Node)) :
    listOfJson? (listToJson ns) = .ok ns :=
  listOfJson?_listToJson fun _ _ n _ => ofJson?_toJson n

end Node

/-! ### The numbers of what is written -/

/-- Where there is a location, it is written with integers only. -/
theorem Location.integral_toJson (l : Location) : l.toJson.Integral := by
  have hpoint : ∀ p : Point, p.toJson.Integral := by
    intro p
    refine Json.integral_object fun m hm => ?_
    simp only [List.mem_cons, List.not_mem_nil, or_false] at hm
    rcases hm with rfl | rfl | rfl <;> exact Json.integral_int _
  refine Json.integral_object fun m hm => ?_
  simp only [List.mem_cons, List.not_mem_nil, or_false] at hm
  rcases hm with rfl | rfl
  · exact hpoint l.start
  · exact hpoint l.stop

/-- An object with a kind has no numbers but those of its fields and its location. -/
theorem integral_tagged {kind : String} {fields : List (String × Json)} {loc : Option Location}
    (h : ∀ m ∈ fields, m.2.Integral) : (tagged kind fields loc).Integral := by
  refine Json.integral_object fun m hm => ?_
  rw [List.mem_cons, List.mem_append] at hm
  rcases hm with rfl | hm | hm
  · exact Json.integral_text _
  · exact h m hm
  · cases loc with
    | none => cases hm
    | some l =>
      rw [locationMembers, List.mem_singleton] at hm
      rw [hm]
      exact l.integral_toJson

namespace Node

/-- All nodes of the list, if there is one, are written with integers only. -/
def ListIntegral (ns : Option (List Node)) : Prop := ∀ l, ns = some l → ∀ n ∈ l, n.toJson.Integral

theorem integral_listToJson {ns : Option (List Node)} (h : ListIntegral ns) :
    (listToJson ns).Integral := by
  cases ns with
  | none => rw [listToJson]; exact Json.integral_null
  | some l =>
    rw [listToJson, itemsToJson_eq_map]
    refine Json.integral_array fun v hv => ?_
    obtain ⟨n, hn, rfl⟩ := List.mem_map.mp hv
    exact h l rfl n hn

theorem integral_argumentToJson {a : Option (Argument Node)}
    (h : ListIntegral (a.bind Argument.content)) (kind : String) :
    (argumentToJson kind a).Integral := by
  rcases a with - | ⟨content, loc⟩
  · rw [argumentToJson]; exact Json.integral_null
  · rw [argumentToJson]
    refine integral_tagged fun m hm => ?_
    rw [List.mem_singleton.mp hm]
    exact integral_listToJson h

end Node

theorem Draft.integral_of_value? {d : Draft} {k : Kind} {f : Field} {v : Json}
    (hd : ∀ ns ∈ d.lists, Node.ListIntegral ns) (hv : d.value? k f = some v) : v.Integral := by
  have harg := Node.integral_argumentToJson
    (hd (d.argument.bind Argument.content) (by simp [lists]))
  cases f with
  | args => cases hv; exact Node.integral_listToJson (hd d.args (by simp [lists]))
  | content => cases hv; exact Node.integral_listToJson (hd d.content (by simp [lists]))
  | argument =>
    rw [value?] at hv
    split at hv
    · obtain ⟨a, ha, rfl⟩ := Option.map_eq_some_iff.mp hv
      rw [← ha]
      exact harg _
    · cases hv
      exact harg _
  | location =>
    obtain ⟨l, -, rfl⟩ := Option.map_eq_some_iff.mp hv
    exact l.integral_toJson
  | _ => cases hv; exact Json.integral_text _

namespace Node

/-- **A node is written with integers for its only numbers.** -/
theorem integral_toJson (n : Node) : n.toJson.Integral := by
  induction n using inductionOnLists with
  | step n ih =>
    rw [toJson_eq_members]
    refine Json.integral_object fun m hm => ?_
    rcases List.mem_cons.mp hm with rfl | hm
    · exact Json.integral_text _
    · obtain ⟨f, -, v, hv, rfl⟩ := Draft.mem_members hm
      refine Draft.integral_of_value? ?_ hv
      rintro ns hns l rfl p hp
      exact ih l hns p hp

theorem integral_listToJson_self (ns : Option (List Node)) : (listToJson ns).Integral :=
  integral_listToJson fun _ _ n _ => n.integral_toJson

end Node

end TexTree

/-
TexTree/Proofs/Codec/Reencoding.lean

Reading a text and writing what has been read.  The new text nests at most one level
deeper than the old one:

    decodeList? s = ok ns   →   (listToJson ns).depth ≤ (the value of s).depth + 1

so it is read again, as the same list, unless the old text is within one level of the
limit; and written once more it is the same text.

Design.  What is written for a field is never deeper than what has been read for it,
but for a location: an object without members is read as one, and both its points are
written out.  A location holds nothing else, hence the level that it adds is added
once.  The invariant of a draft says so field by field (`Draft.Within`); reading one
member keeps it (`Draft.Within.read?`), and so does reading all of them
(`Draft.Within.readMembers`).
-/
import TexTree.Proofs.Codec.Acceptance
import TexTree.Proofs.Codec.DocumentRoundTrip

namespace TexTree

open Json (sameName)

/-! ### Bounds on the nesting -/

namespace Json

theorem depthItems_le_iff {items : List Json} {n : Nat} :
    depthItems items ≤ n ↔ ∀ v ∈ items, v.depth ≤ n := by
  induction items with
  | nil => exact iff_of_true (Nat.zero_le _) (List.forall_mem_nil _)
  | cons v items ih => rw [depthItems, Nat.max_le, ih, List.forall_mem_cons]

theorem depthMembers_le_iff {members : List (String × Json)} {n : Nat} :
    depthMembers members ≤ n ↔ ∀ m ∈ members, m.2.depth ≤ n := by
  induction members with
  | nil => exact iff_of_true (Nat.zero_le _) (List.forall_mem_nil _)
  | cons m members ih => rw [depthMembers, Nat.max_le, ih, List.forall_mem_cons]

/-- The bytes that are printed of a value spell it. -/
theorem spells_bytes_print {v : Json} (h : v.Integral) :
    v.Spells (Utf8.decode (Utf8.bytes v.print)) := by
  rw [Utf8.decode_bytes, print, String.toList_ofList]
  exact spells_chars h

end Json

theorem Location.depth_toJson (l : Location) : l.toJson.depth = 2 := rfl

/-- A location is read from an object, or it was there before. -/
theorem Location.isSome_or_of_merge {l : Option Location} {v : Json}
    (h : (Location.merge l v).isSome) : l.isSome ∨ 1 ≤ v.depth := by
  unfold merge at h
  split at h
  · rw [Json.depth]
    exact .inr (Nat.le_add_left 1 _)
  · cases h
  · exact .inl h

/-- What is written of a kind, its fields and a location nests one level deeper than these. -/
theorem depth_tagged_le {kind : String} {fields : List (String × Json)} {loc : Option Location}
    {n : Nat} (hfields : ∀ m ∈ fields, m.2.depth ≤ n) (hloc : loc.isSome → 2 ≤ n) :
    (tagged kind fields loc).depth ≤ n + 1 := by
  rw [tagged, Json.depth]
  refine Nat.succ_le_succ (Json.depthMembers_le_iff.mpr fun m hm => ?_)
  rw [List.mem_cons, List.mem_append] at hm
  rcases hm with rfl | hm | hm
  · exact Nat.zero_le _
  · exact hfields m hm
  · cases loc with
    | none => cases hm
    | some l =>
      rw [locationMembers, List.mem_singleton] at hm
      rw [hm, Location.depth_toJson]
      exact hloc rfl

/-! ### Lists of nodes and single arguments -/

namespace Node

/-- What is read as a list of nodes from the value is written at most one level deeper. -/
def ListShallow (v : Json) : Prop :=
  ∀ ns, listOfJson? v = .ok ns → (listToJson ns).depth ≤ v.depth + 1

theorem depth_listToJson_or {ns old : Option (List Node)} {n : Nat}
    (hns : (listToJson ns).depth ≤ n) (hold : (listToJson old).depth ≤ n) :
    (listToJson (ns.or old)).depth ≤ n := by
  cases ns with
  | none => exact hold
  | some l => exact hns

/-- Every node of a list has been read from an item. -/
theorem exists_of_mem_itemsOfJson? {index : Nat} {items : List Json} {ns : List Node}
    (h : itemsOfJson? index items = .ok ns) {n : Node} (hn : n ∈ ns) :
    ∃ v ∈ items, ofJson? v = .ok n := by
  induction items generalizing index ns with
  | nil =>
    rw [itemsOfJson?] at h
    cases h
    cases hn
  | cons v items ih =>
    obtain ⟨m, rest, hv, hrest, rfl⟩ := itemsOfJson?_cons_eq_ok_iff.mp h
    rcases List.mem_cons.mp hn with rfl | hn
    · exact ⟨v, List.mem_cons_self, hv⟩
    · obtain ⟨w, hw, hread⟩ := ih hrest hn
      exact ⟨w, List.mem_cons_of_mem v hw, hread⟩

theorem listShallow_of_parts {v : Json}
    (h : ∀ w ∈ v.parts, ∀ n, ofJson? w = .ok n → n.toJson.depth ≤ w.depth + 1) : ListShallow v := by
  intro ns hns
  rcases listOfJson?_eq_ok_iff.mp hns with ⟨rfl, rfl⟩ | ⟨items, l, rfl, rfl, hl⟩
  · exact Nat.zero_le _
  · rw [listToJson, itemsToJson_eq_map, Json.depth, Json.depth]
    refine Nat.succ_le_succ (Json.depthItems_le_iff.mpr fun w hw => ?_)
    obtain ⟨n, hn, rfl⟩ := List.mem_map.mp hw
    obtain ⟨u, hu, hread⟩ := exists_of_mem_itemsOfJson? hl hn
    exact Nat.le_trans (h u hu n hread) (Nat.succ_le_succ (Json.depth_le_depthItems hu))

/-- What is written of an argument, apart from its kind, nests at most `n` levels. -/
structure ArgumentWithin (n : Nat) (a : Argument Node) : Prop where
  content : (listToJson a.content).depth ≤ n
  loc : a.loc.isSome → 2 ≤ n

theorem ArgumentWithin.depth_le {n : Nat} {a : Argument Node} (h : ArgumentWithin n a)
    (kind : String) : (argumentToJson kind (some a)).depth ≤ n + 1 := by
  obtain ⟨content, loc⟩ := a
  rw [argumentToJson]
  refine depth_tagged_le (fun m hm => ?_) h.loc
  rw [List.mem_singleton.mp hm]
  exact h.content

/-- Reading the members of an argument keeps the bound that they give. -/
theorem ArgumentWithin.readArgumentMembers {n : Nat} {members : List (String × Json)}
    (hmembers : ∀ m ∈ members, m.2.depth + 1 ≤ n ∧ ListShallow m.2) {a b : Argument Node}
    (ha : ArgumentWithin n a) (h : readArgumentMembers a members = .ok b) : ArgumentWithin n b := by
  induction members generalizing a with
  | nil =>
    rw [Node.readArgumentMembers] at h
    cases h
    exact ha
  | cons m members ih =>
    obtain ⟨name, v⟩ := m
    obtain ⟨⟨hv, hshallow⟩, hmembers⟩ := List.forall_mem_cons.mp hmembers
    cases hc : sameName "content" name with
    | true =>
      rw [readArgumentMembers_content hc, bind_eq_ok_iff] at h
      obtain ⟨ns, hns, h⟩ := h
      have hnext : ArgumentWithin n { a with content := ns.or a.content } :=
        ⟨depth_listToJson_or (Nat.le_trans (hshallow ns hns) hv) ha.content, ha.loc⟩
      exact ih hmembers hnext h
    | false =>
      cases hl : sameName "location" name with
      | true =>
        rw [readArgumentMembers_location hc hl] at h
        have hnext : ArgumentWithin n { a with loc := Location.merge a.loc v } := by
          refine ⟨ha.content, fun hsome => ?_⟩
          rcases Location.isSome_or_of_merge hsome with hold | hdepth
          · exact ha.loc hold
          · exact Nat.le_trans (Nat.succ_le_succ hdepth) hv
        exact ih hmembers hnext h
      | false =>
        rw [readArgumentMembers_other hc hl] at h
        exact ih hmembers ha h

/-- The argument that is read from a value, over one that keeps a bound, keeps it when the
value does. -/
theorem ArgumentWithin.readArgument {n : Nat} {v : Json} (hv : v.depth ≤ n)
    (hparts : ∀ w ∈ v.parts, ListShallow w) {a b : Option (Argument Node)}
    (ha : ∀ x, a = some x → ArgumentWithin n x) (h : readArgument a v = .ok b) :
    ∀ x, b = some x → ArgumentWithin n x := by
  cases v with
  | object members =>
    rw [readArgument_object, map_eq_ok_iff] at h
    obtain ⟨y, hread, rfl⟩ := h
    rintro _ ⟨⟩
    have hstart : ArgumentWithin n (a.getD {}) := by
      cases a with
      | none => exact ⟨Nat.zero_le _, nofun⟩
      | some x => exact ha x rfl
    rw [Json.depth] at hv
    refine hstart.readArgumentMembers (fun m hm => ⟨?_, ?_⟩) hread
    · exact Nat.le_trans (Nat.succ_le_succ (Json.depth_le_depthMembers hm)) hv
    · exact hparts m.2 (List.mem_map_of_mem hm)
  | array items =>
    cases h
    exact ha
  | atom c =>
    cases c with
    | null =>
      cases h
      exact nofun
    | _ =>
      cases h
      exact ha

end Node

/-! ### Drafts -/

namespace Draft

/-- What is written for the fields of a draft nests at most one level deeper than `n`. -/
structure Within (n : Nat) (d : Draft) : Prop where
  args : (Node.listToJson d.args).depth ≤ n + 1
  content : (Node.listToJson d.content).depth ≤ n + 1
  argument : ∀ a, d.argument = some a → Node.ArgumentWithin n a
  loc : d.loc.isSome → 1 ≤ n

theorem within_blank (n : Nat) : Within n {} where
  args := Nat.zero_le _
  content := Nat.zero_le _
  argument := nofun
  loc := nofun

namespace Within

variable {n : Nat} {d : Draft}

theorem depth_of_value? (hd : d.Within n) {k : Kind} {f : Field} {v : Json}
    (hv : d.value? k f = some v) : v.depth ≤ n + 1 := by
  have hargument : ∀ kind, (Node.argumentToJson kind d.argument).depth ≤ n + 1 := by
    intro kind
    cases ha : d.argument with
    | none => exact Nat.zero_le _
    | some a => exact (hd.argument a ha).depth_le kind
  cases f with
  | args => cases hv; exact hd.args
  | content => cases hv; exact hd.content
  | argument =>
    rw [value?] at hv
    split at hv
    · obtain ⟨a, ha, rfl⟩ := Option.map_eq_some_iff.mp hv
      exact (hd.argument a ha).depth_le _
    · cases hv
      exact hargument _
  | location =>
    obtain ⟨l, hl, rfl⟩ := Option.map_eq_some_iff.mp hv
    rw [Location.depth_toJson]
    exact Nat.succ_le_succ (hd.loc (by rw [hl]; rfl))
  | _ => cases hv; exact Nat.zero_le _

/-- Reading one member keeps the bound that its value gives. -/
theorem read? (hd : d.Within n) {v : Json} (hv : v.depth ≤ n) (hlist : Node.ListShallow v)
    (hparts : ∀ w ∈ v.parts, Node.ListShallow w) {f : Field} {e : Draft}
    (h : d.read? v f = .ok e) : e.Within n := by
  cases f with
  | args =>
    obtain ⟨ns, hns, rfl⟩ := map_eq_ok_iff.mp h
    have hdepth := Nat.le_trans (hlist ns hns) (Nat.succ_le_succ hv)
    exact { hd with args := Node.depth_listToJson_or hdepth hd.args }
  | content =>
    obtain ⟨ns, hns, rfl⟩ := map_eq_ok_iff.mp h
    have hdepth := Nat.le_trans (hlist ns hns) (Nat.succ_le_succ hv)
    exact { hd with content := Node.depth_listToJson_or hdepth hd.content }
  | argument =>
    obtain ⟨a, ha, rfl⟩ := map_eq_ok_iff.mp h
    exact { hd with argument := Node.ArgumentWithin.readArgument hv hparts hd.argument ha }
  | location =>
    cases h
    refine { hd with loc := fun hsome => ?_ }
    rcases Location.isSome_or_of_merge hsome with hold | hdepth
    · exact hd.loc hold
    · exact Nat.le_trans hdepth hv
  | _ =>
    cases h
    exact ⟨hd.args, hd.content, hd.argument, hd.loc⟩

/-- Reading all members keeps the bound that their values give. -/
theorem readMembers (hd : d.Within n) {k : Kind} {members : List (String × Json)}
    (hmembers : ∀ m ∈ members, m.2.depth ≤ n ∧ Node.ListShallow m.2 ∧
      ∀ w ∈ m.2.parts, Node.ListShallow w) {e : Draft}
    (h : Node.readMembers k d members = .ok e) : e.Within n := by
  induction members generalizing d with
  | nil =>
    rw [Node.readMembers_nil] at h
    cases h
    exact hd
  | cons m members ih =>
    obtain ⟨name, v⟩ := m
    obtain ⟨⟨hv, hlist, hparts⟩, hmembers⟩ := List.forall_mem_cons.mp hmembers
    cases hf : k.field? name with
    | none =>
      rw [Node.readMembers_cons_none hf] at h
      exact ih hd hmembers h
    | some f =>
      rw [Node.readMembers_cons_some hf, bind_eq_ok_iff] at h
      obtain ⟨d', hread, h⟩ := h
      exact ih (hd.read? hv hlist hparts hread) hmembers h

end Within

/-- A node made from a draft is written with the members of the draft. -/
theorem members_draft_toNode (d : Draft) (k : Kind) :
    (d.toNode k).draft.members k = d.members k := by
  cases k <;> rfl

end Draft

/-! ### Nodes -/

namespace Node

/-- **What is read from a value is written at most one level deeper**, whether it is a node or
a list of nodes. -/
theorem depth_toJson_le (v : Json) :
    (∀ n, ofJson? v = .ok n → n.toJson.depth ≤ v.depth + 1) ∧ ListShallow v := by
  -- the members of an argument stand two levels below the node, so the lists that are
  -- read from the parts of the value go along
  have hall : (∀ n, ofJson? v = .ok n → n.toJson.depth ≤ v.depth + 1) ∧ ListShallow v ∧
      ∀ w ∈ v.parts, ListShallow w := by
    induction v using Json.inductionOnParts with
    | step v ih =>
      refine ⟨fun n hn => ?_, listShallow_of_parts fun w hw => (ih w hw).1,
        fun w hw => (ih w hw).2.1⟩
      obtain ⟨members, k, d, rfl, -, hd, -, rfl⟩ := ofJson?_eq_ok_iff.mp hn
      have hwithin : d.Within (Json.depthMembers members) :=
        (Draft.within_blank _).readMembers (fun m hm =>
          ⟨Json.depth_le_depthMembers hm, (ih m.2 (List.mem_map_of_mem hm)).2⟩) hd
      rw [toJson_eq_members, Draft.kind_toNode, Draft.members_draft_toNode, Json.depth, Json.depth]
      refine Nat.succ_le_succ (Json.depthMembers_le_iff.mpr fun m hm => ?_)
      rcases List.mem_cons.mp hm with rfl | hm
      · exact Nat.zero_le _
      · obtain ⟨f, -, w, hw, rfl⟩ := Draft.mem_members hm
        exact hwithin.depth_of_value? hw
  exact ⟨hall.1, hall.2.1⟩

/-- The text that a list of nodes is written as, when it has been read from another text. -/
def reencode? (bytes : List UInt8) : Except DecodeError (List UInt8) :=
  (decodeList? (Utf8.decode bytes)).map fun ns => Utf8.bytes (encodeList ns)

/-- **Writing what has been read is stable.**  A text that is read as a list of nodes spells a
value, and what is written of the list spells one that nests at most one level deeper.  When
the text nests at most 9999 levels, what is written is read as the same list, and is written
again as it stands. -/
theorem reencode_stable {bytes : List UInt8} {ns : Option (List Node)}
    (h : decodeList? (Utf8.decode bytes) = .ok ns) :
    ∃ v w : Json, v.Spells (Utf8.decode bytes) ∧
      w.Spells (Utf8.decode (Utf8.bytes (encodeList ns))) ∧ w.depth ≤ v.depth + 1 ∧
      (v.depth ≤ 9999 →
        decodeList? (Utf8.decode (Utf8.bytes (encodeList ns))) = .ok ns ∧
        reencode? (Utf8.bytes (encodeList ns)) = .ok (Utf8.bytes (encodeList ns))) := by
  rw [decodeList?] at h
  split at h
  · cases h
  next v hparse =>
  obtain ⟨hspells, -⟩ := Json.parse?_eq_some_iff.mp hparse
  have hdepth := (depth_toJson_le v).2 ns h
  refine ⟨v, listToJson ns, hspells,
    Json.spells_bytes_print (integral_listToJson_self ns), hdepth, fun hv => ?_⟩
  have hlimit : (listToJson ns).depth ≤ Json.nestingLimit :=
    Nat.le_trans hdepth (Nat.succ_le_succ hv)
  have hagain : decodeList? (Utf8.decode (Utf8.bytes (encodeList ns))) = .ok ns := by
    rw [decodeList?_bytes_encodeList, if_pos hlimit]
  refine ⟨hagain, ?_⟩
  rw [reencode?, hagain]
  rfl

/-- A list with one node, whose location has no members. -/
def bareLocation : Json :=
  .array [.object [("kind", .text "parbreak"), ("location", .object [])]]

/-- A location without members is written one level deeper, and so it stays. -/
theorem reencode_bareLocation :
    decodeList? (Utf8.decode (Utf8.bytes bareLocation.print)) =
      .ok (some [.mark .parBreak (some {})]) ∧
    bareLocation.depth + 1 = (listToJson (some [.mark .parBreak (some {})])).depth ∧
    reencode? (Utf8.bytes (encodeList (some [.mark .parBreak (some {})]))) =
      .ok (Utf8.bytes (encodeList (some [.mark .parBreak (some {})]))) := by
  have hintegral : bareLocation.Integral := by
    refine Json.integral_array fun v hv => ?_
    rw [List.mem_singleton.mp hv]
    refine Json.integral_object fun m hm => ?_
    simp only [List.mem_cons, List.not_mem_nil, or_false] at hm
    rcases hm with rfl | rfl
    · exact Json.integral_text _
    · exact Json.integral_object nofun
  have hread : listOfJson? bareLocation = .ok (some [.mark .parBreak (some {})]) := rfl
  have hdecode : decodeList? (Utf8.decode (Utf8.bytes bareLocation.print)) =
      .ok (some [.mark .parBreak (some {})]) := by
    rw [Utf8.decode_bytes, decodeList?, Json.parse?_chars hintegral]
    exact hread
  obtain ⟨v, w, hv, -, -, hstable⟩ := reencode_stable hdecode
  have hdepth : v.depth ≤ 9999 := by
    rw [hv.unique (Json.spells_bytes_print hintegral)]
    decide
  exact ⟨hdecode, rfl, (hstable hdepth).2⟩

end Node

end TexTree

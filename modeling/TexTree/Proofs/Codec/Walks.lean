/-
TexTree/Proofs/Codec/Walks.lean

Reading as a walk.  A list of nodes that cannot be read ends the reading; apart from
that, each member changes what has been read so far, and

    readMembers k d members = ok e   →   e = members.foldl (readOver k) d

for nodes, and likewise for single arguments and documents.  The steps of these walks
are total: where nothing can be read, they leave everything as it is (`nodesOr`,
`argumentOr`).  So what is read from an object that can be read at all is said by a
fold over its members (`Node.ofJson?_object`, `Document.ofJson?_object`).
-/
import TexTree.Proofs.Codec.Acceptance
import TexTree.Proofs.Codec.DocumentRoundTrip

namespace TexTree

open Json (sameName)

/-! ### The kind that is named -/

theorem LastText.unique {name s t : String} {members : List (String × Json)}
    (hs : LastText name members s) (ht : LastText name members t) (hs' : s ≠ "") (ht' : t ≠ "") :
    s = t := by
  rw [← (lastText_eq_iff hs').mpr hs, (lastText_eq_iff ht').mpr ht]

/-- Members name one kind of node at most. -/
theorem Kind.eq_of_lastText {members : List (String × Json)} {k l : Kind}
    (hk : LastText "kind" members k.name) (hl : LastText "kind" members l.name) : k = l := by
  have hname := hk.unique hl k.name_ne_empty l.name_ne_empty
  rw [← Option.some_inj, ← ofName?_name k, ← ofName?_name l, hname]

theorem DocumentKind.name_ne_empty (k : DocumentKind) : k.name ≠ "" := by
  cases k <;> decide

theorem DocumentKind.ofName?_eq_some_iff {s : String} {k : DocumentKind} :
    ofName? s = some k ↔ s = k.name := by
  constructor
  · intro h
    rw [ofName?] at h
    have hname := List.find?_some h
    exact (beq_iff_eq.mp hname).symm
  · rintro rfl
    exact ofName?_name k

/-- Members name one kind of document at most. -/
theorem DocumentKind.eq_of_lastText {members : List (String × Json)} {k l : DocumentKind}
    (hk : LastText "kind" members k.name) (hl : LastText "kind" members l.name) : k = l := by
  have hname := hk.unique hl k.name_ne_empty l.name_ne_empty
  rw [← Option.some_inj, ← ofName?_name k, ← ofName?_name l, hname]

/-! ### Lists and single arguments -/

/-- The list of nodes that the value describes, or `old` when it describes none. -/
def nodesOr (old : Option (List Node)) (v : Json) : Option (List Node) :=
  match Node.listOfJson? v with
  | .ok ns => ns.or old
  | .error _ => old

/-- The value, read over an argument, or `old` when it cannot be read. -/
def argumentOr (old : Option (Argument Node)) (v : Json) : Option (Argument Node) :=
  match Node.readArgument old v with
  | .ok a => a
  | .error _ => old

theorem nodesOr_of_eq_ok {v : Json} {ns : Option (List Node)} (h : Node.listOfJson? v = .ok ns)
    (old : Option (List Node)) : nodesOr old v = ns.or old := by
  rw [nodesOr, h]

theorem argumentOr_of_eq_ok {v : Json} {old a : Option (Argument Node)}
    (h : Node.readArgument old v = .ok a) : argumentOr old v = a := by
  rw [argumentOr, h]

namespace Node

/-- One member, read over an argument. -/
def overArgument (a : Argument Node) (m : String × Json) : Argument Node :=
  if sameName "content" m.1 then { a with content := nodesOr a.content m.2 }
  else if sameName "location" m.1 then { a with loc := Location.merge a.loc m.2 }
  else a

theorem eq_foldl_of_readArgumentMembers {a b : Argument Node} {members : List (String × Json)}
    (h : readArgumentMembers a members = .ok b) : b = members.foldl overArgument a := by
  induction members generalizing a with
  | nil =>
    rw [readArgumentMembers] at h
    exact (Except.ok.inj h).symm
  | cons m members ih =>
    obtain ⟨name, v⟩ := m
    rw [List.foldl_cons, overArgument]
    cases hc : sameName "content" name with
    | true =>
      rw [readArgumentMembers_content hc, bind_eq_ok_iff] at h
      obtain ⟨ns, hns, h⟩ := h
      rw [ih h, nodesOr_of_eq_ok hns]
      rfl
    | false =>
      cases hl : sameName "location" name with
      | true =>
        rw [readArgumentMembers_location hc hl] at h
        exact ih h
      | false =>
        rw [readArgumentMembers_other hc hl] at h
        exact ih h

/-- **The argument that an object is read as.** -/
theorem argumentOr_object {members : List (String × Json)}
    (h : HasType .argument (.object members)) (old : Option (Argument Node)) :
    argumentOr old (.object members) = some (members.foldl overArgument (old.getD {})) := by
  have hreads : Succeeds (readArgument old (.object members)) :=
    succeeds_readArgument.mpr (succeeds_readArgument.mp ((reads_iff_hasType _ .argument).mpr h).2)
  obtain ⟨a, ha⟩ := hreads
  rw [argumentOr_of_eq_ok ha]
  rw [readArgument_object, map_eq_ok_iff] at ha
  obtain ⟨b, hb, rfl⟩ := ha
  rw [eq_foldl_of_readArgumentMembers hb]

end Node

/-! ### Nodes -/

namespace Draft

/-- A value, read over the field it belongs to, whatever the field holds. -/
def fill (d : Draft) (v : Json) : Field → Draft
  | .args => { d with args := nodesOr d.args v }
  | .content => { d with content := nodesOr d.content v }
  | .argument => { d with argument := argumentOr d.argument v }
  | f => d.put v f

/-- One member of a node of kind `k`, read over a draft. -/
def readOver (k : Kind) (d : Draft) (m : String × Json) : Draft := (k.field? m.1).elim d (d.fill m.2)

theorem eq_fill_of_read? {d e : Draft} {v : Json} {f : Field} (h : d.read? v f = .ok e) :
    e = d.fill v f := by
  cases f with
  | args | content =>
    obtain ⟨ns, hns, rfl⟩ := map_eq_ok_iff.mp h
    rw [fill, nodesOr_of_eq_ok hns]
  | argument =>
    obtain ⟨a, ha, rfl⟩ := map_eq_ok_iff.mp h
    rw [fill, argumentOr_of_eq_ok ha]
  | _ => exact (Except.ok.inj h).symm

end Draft

namespace Node

theorem eq_foldl_of_readMembers {k : Kind} {d e : Draft} {members : List (String × Json)}
    (h : readMembers k d members = .ok e) : e = members.foldl (Draft.readOver k) d := by
  induction members generalizing d with
  | nil =>
    rw [readMembers_nil] at h
    exact (Except.ok.inj h).symm
  | cons m members ih =>
    obtain ⟨name, v⟩ := m
    rw [List.foldl_cons, Draft.readOver]
    cases hf : k.field? name with
    | none =>
      rw [readMembers_cons_none hf] at h
      exact ih h
    | some f =>
      rw [readMembers_cons_some hf, bind_eq_ok_iff] at h
      obtain ⟨d', hread, h⟩ := h
      rw [ih h, Draft.eq_fill_of_read? hread, Option.elim_some]

/-- **The node that an object is read as.** -/
theorem ofJson?_object {members : List (String × Json)} {k : Kind}
    (hk : LastText "kind" members k.name) (h : HasType .node (.object members)) :
    ofJson? (.object members) = .ok ((members.foldl (Draft.readOver k) {}).toNode k) := by
  obtain ⟨n, hn⟩ := (reads_iff_hasType _ .node).mpr h
  obtain ⟨_, l, d, ⟨⟩, hl, hd, -, rfl⟩ := ofJson?_eq_ok_iff.mp hn
  obtain rfl := Kind.eq_of_lastText hk ((kindName?_eq_some_iff l.name_ne_empty).mp hl).2
  rw [hn, eq_foldl_of_readMembers hd]

end Node

/-! ### Documents -/

theorem DocumentKind.field?_eq_some_iff {k : DocumentKind} {name : String} {f : DocumentField} :
    k.field? name = some f ↔ f ∈ k.fields ∧ sameName f.key name :=
  find?_sameName_eq_some_iff fun f hf => by
    revert hf
    cases k <;> cases f <;> decide

namespace DocumentDraft

/-- A value, read over the field of a document that it belongs to. -/
def fill (d : DocumentDraft) (v : Json) : DocumentField → DocumentDraft
  | .content => { d with content := nodesOr d.content v }
  | .comments => { d with comments := d.comments.merge v }
  | .rest => { d with rest := textOr d.rest v }

/-- One member of a document of kind `k`, read over a draft. -/
def readOver (k : DocumentKind) (d : DocumentDraft) (m : String × Json) : DocumentDraft :=
  (k.field? m.1).elim d (d.fill m.2)

end DocumentDraft

namespace Document

/-- The members of a document are read when all its lists of nodes are, and then they are
read one over the other. -/
theorem readMembers_eq_ok_iff {k : DocumentKind} {d e : DocumentDraft}
    {members : List (String × Json)} :
    readMembers k d members = .ok e ↔
      (∀ m ∈ members, k.field? m.1 = some .content → Succeeds (Node.listOfJson? m.2)) ∧
        e = members.foldl (DocumentDraft.readOver k) d := by
  induction members generalizing d with
  | nil =>
    rw [readMembers, Except.ok.injEq, and_iff_right (List.forall_mem_nil _)]
    exact eq_comm
  | cons m members ih =>
    obtain ⟨name, v⟩ := m
    rw [readMembers, List.forall_mem_cons, List.foldl_cons, DocumentDraft.readOver]
    cases hf : k.field? name with
    | none =>
      rw [ih]
      exact and_congr_left' (and_iff_right (by rintro ⟨⟩)).symm
    | some f =>
      cases f with
      | comments | rest =>
        rw [ih]
        exact and_congr_left' (and_iff_right (by rintro ⟨⟩)).symm
      | content =>
        cases hv : Node.listOfJson? v with
        | error cause =>
          exact iff_of_false (by rintro ⟨⟩) fun h => not_succeeds_error cause (h.1.1 rfl)
        | ok ns =>
          have hfill : d.fill v .content = { d with content := ns.or d.content } := by
            rw [DocumentDraft.fill, nodesOr_of_eq_ok hv]
          rw [and_iff_right fun _ => succeeds_ok ns]
          dsimp only
          rw [Option.elim_some, hfill, ih]

/-- When a value is read as a document: it is an object that names a kind, its members can be
read, and the type of each is right. -/
theorem ofJson?_eq_ok_iff {v : Json} {document : Document} :
    ofJson? v = .ok document ↔
      ∃ members k d, v = .object members ∧ kindName? members = some (DocumentKind.name k) ∧
        readMembers k {} members = .ok d ∧ members.all k.fits ∧ document = d.toDocument k := by
  constructor
  · intro h
    unfold ofJson? at h
    split at h
    · next members =>
      split at h
      · cases h
      next name hname =>
      split at h
      · cases h
      next k hk =>
      split at h
      · cases h
      next d hd =>
      split at h
      · next hfits =>
        rw [DocumentKind.ofName?_eq_some_iff.mp hk] at hname
        exact ⟨members, k, d, rfl, hname, hd, hfits, (Except.ok.inj h).symm⟩
      · cases h
    · cases h
    · cases h
  · rintro ⟨members, k, d, rfl, hname, hd, hfits, rfl⟩
    exact ofJson?_of_readMembers hname hd hfits

/-- **The document that an object is read as.** -/
theorem ofJson?_object {members : List (String × Json)} {k : DocumentKind}
    (hk : LastText "kind" members k.name) (h : Succeeds (ofJson? (.object members))) :
    ofJson? (.object members) = .ok ((members.foldl (DocumentDraft.readOver k) {}).toDocument k) := by
  obtain ⟨document, hdocument⟩ := h
  obtain ⟨_, l, d, ⟨⟩, hl, hd, -, rfl⟩ := ofJson?_eq_ok_iff.mp hdocument
  obtain rfl := DocumentKind.eq_of_lastText hk ((kindName?_eq_some_iff l.name_ne_empty).mp hl).2
  rw [hdocument, (readMembers_eq_ok_iff.mp hd).2]

end Document

end TexTree

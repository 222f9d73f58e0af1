/-
TexTree/Proofs/Codec/Rearrangement.lean

The order of members, and members that belong to no field, do not count.

    decode? s = ok n   →   decode? t = ok n       where `t` is `s`, rearranged

Design.  A rearrangement is a run of single changes (`Change`): in one object that is
read, wherever it stands, the members are put in another order, or one member of no
field is added.  Which objects are read, and as what, is known from the kinds that
have been named further out.  One change keeps what is read, and it keeps the object
free of two members for one field, so that the next change may follow
(`Change.sameReading`); a run of them does the same (`Rearranged.sameReading`).
-/
import Mathlib.Logic.Relation
import TexTree.Proofs.Codec.FieldWise

namespace TexTree

open Json (sameName)

/-! ### Rearranged values -/

/-- One change of a value in a role, at one object in it. -/
inductive Change : Role → Json → Json → Prop
  | permute {p : Role} {ms ns : List (String × Json)} {form : Form} (hf : HasForm p ms form)
      (h : ms.Perm ns) : Change p (.object ms) (.object ns)
  | insert {p : Role} (before after : List (String × Json)) {m : String × Json} {form : Form}
      (hf : HasForm p (before ++ after) form) (h : Foreign form.fields m.1) :
      Change p (.object (before ++ after)) (.object (before ++ m :: after))
  | member {p : Role} (before after : List (String × Json)) {name : String} {v w : Json}
      {form : Form} {t : String × Role} (hf : HasForm p (before ++ (name, v) :: after) form)
      (ht : t ∈ form.fields) (hname : sameName t.1 name) (h : Change t.2 v w) :
      Change p (.object (before ++ (name, v) :: after)) (.object (before ++ (name, w) :: after))
  | item {p q : Role} (before after : List Json) {v w : Json} (hq : p.items? = some q)
      (h : Change q v w) : Change p (.array (before ++ v :: after)) (.array (before ++ w :: after))

/-- A value and what becomes of it by a run of changes. -/
def Rearranged (p : Role) : Json → Json → Prop := Relation.ReflTransGen (Change p)

/-- **One change keeps what is read.** -/
theorem Change.sameReading {p : Role} {v w : Json} (h : Change p v w) (hu : Unambiguous p v)
    (ha : p.Accepts v) : SameReading p v w := by
  induction h with
  | permute hf h => exact sameReading_object hf hu ha (.perm h)
  | insert before after hf h => exact sameReading_object hf hu ha (.insert before after h)
  | @member p before after name v w form t hf ht hname h ih =>
    have hmem : (name, v) ∈ before ++ (name, v) :: after :=
      List.mem_append_right before List.mem_cons_self
    have hpart : SameReading t.2 v w := by
      refine ih ?_ ((accepts_object_iff hf).mp ha _ hmem t ht hname)
      cases hu with
      | object _ hmembers => exact hmembers form hf _ hmem t ht hname
    -- the member belongs to no other field
    refine sameReading_object hf hu ha (.value before after fun u hu hname' => ?_)
    rw [hf.field_unique hu ht hname' hname]
    exact hpart
  | @item p q before after v w hq h ih =>
    have hmem : v ∈ before ++ v :: after := List.mem_append_right before List.mem_cons_self
    have hpart : SameReading q v w := by
      refine ih ?_ ((accepts_array_iff hq).mp ha v hmem)
      cases hu with
      | array hitems => exact hitems q hq v hmem
    exact sameReading_array hq hu ha hpart

/-- **A run of changes keeps what is read.** -/
theorem Rearranged.sameReading {p : Role} {v w : Json} (h : Rearranged p v w)
    (hu : Unambiguous p v) (ha : p.Accepts v) : SameReading p v w := by
  induction h with
  | refl => exact ⟨ha, hu, fun _ => rfl⟩
  | tail _ hchange ih =>
    have hnext := hchange.sameReading ih.unambiguous ih.accepts
    exact ⟨hnext.accepts, hnext.unambiguous, fun s => (ih.read s).trans (hnext.read s)⟩

/-! ### Texts -/

/-- The text `t` spells the value of the text `s`, rearranged.  In the first value no object
that is read has two members for one field, and the second does not nest too deep. -/
def RearrangedText (p : Role) (s t : List Char) : Prop :=
  ∃ v w : Json, v.Spells s ∧ Unambiguous p v ∧ Rearranged p v w ∧ w.Spells t ∧ w.depth ≤ 10000

theorem RearrangedText.exists_sameReading {p : Role} {s t : List Char} (h : RearrangedText p s t)
    {v : Json} (hv : Json.parse? Json.nestingLimit s = some v) (ha : p.Accepts v) :
    ∃ w, Json.parse? Json.nestingLimit t = some w ∧ SameReading p v w := by
  obtain ⟨v', w, hs, hu, hrearranged, ht, hdepth⟩ := h
  obtain rfl : v = v' := (Json.parse?_eq_some_iff.mp hv).1.unique hs
  exact ⟨w, Json.parse?_eq_some_iff.mpr ⟨ht, hdepth⟩, hrearranged.sameReading hu ha⟩

/-- **The order of members and members of no field do not count.**  Where a text is read as a
node, as a list of nodes or as a document, a rearranged text is read as the same one. -/
theorem decode?_eq_of_rearrangedText :
    (∀ s t n, RearrangedText (.part .node) s t →
      Node.decode? s = .ok n → Node.decode? t = .ok n) ∧
    (∀ s t ns, RearrangedText (.part .nodes) s t →
      Node.decodeList? s = .ok ns → Node.decodeList? t = .ok ns) ∧
    (∀ s t d, RearrangedText .document s t →
      Document.decode? s = .ok d → Document.decode? t = .ok d) := by
  refine ⟨fun s t n h hs => ?_, fun s t ns h hs => ?_, fun s t d h hs => ?_⟩
  · rw [Node.decode?] at hs ⊢
    split at hs
    · cases hs
    next v hv =>
    obtain ⟨w, hw, hsame⟩ := h.exists_sameReading hv ((reads_iff_hasType v .node).mp ⟨n, hs⟩)
    rw [hw]
    exact eq_ok_of_toOption_eq (hsame.read none) hs
  · rw [Node.decodeList?] at hs ⊢
    split at hs
    · cases hs
    next v hv =>
    obtain ⟨w, hw, hsame⟩ := h.exists_sameReading hv ((reads_iff_hasType v .nodes).mp ⟨ns, hs⟩)
    obtain ⟨ms, hms⟩ := (reads_iff_hasType w .nodes).mpr hsame.accepts
    -- read where there was nothing, a list is what it is
    have hread : nodesOr none v = nodesOr none w := hsame.read none
    rw [nodesOr_of_eq_ok hs, nodesOr_of_eq_ok hms, Option.or_none, Option.or_none] at hread
    rw [hw, hread]
    exact hms
  · rw [Document.decode?] at hs ⊢
    split at hs
    · cases hs
    next v hv =>
    obtain ⟨w, hw, hsame⟩ := h.exists_sameReading hv ⟨d, hs⟩
    rw [hw]
    exact eq_ok_of_toOption_eq (hsame.read none) hs

/-! ### The kind behind and in front -/

/-- An object that names its kind behind its content. -/
def kindBehind (kind : String) (content : Json) : Json :=
  .object [("content", content), ("kind", .text kind)]

/-- An object that names its kind in front, and has one more member before its content. -/
def kindInFront (kind extra : String) (content : Json) : Json :=
  .object [("kind", .text kind), (extra, .int 7), ("content", content)]

section Kind

variable {p q : Role} {form : Form} {kind extra : String} {v w : Json}

theorem unambiguous_kindBehind
    (hf : HasForm p [("content", v), ("kind", .text kind)] form)
    (hq : ("content", q) ∈ form.fields) (h : Unambiguous q v) :
    Unambiguous p (kindBehind kind v) := by
  refine unambiguous_object hf (List.pairwise_pair.mpr ?_) (List.forall_mem_cons.mpr ⟨?_, ?_⟩)
  · intro t _ hboth
    have hsame : Json.foldName "content" = Json.foldName "kind" :=
      (beq_iff_eq.mp hboth.1).symm.trans (beq_iff_eq.mp hboth.2)
    exact absurd hsame (by decide)
  · intro t ht hname
    rw [hf.field_unique ht hq hname (Json.sameName_self "content")]
    exact h
  · exact List.forall_mem_singleton.mpr fun t _ _ => .atom t.2 _

/-- The content may be rearranged, the kind moved, and a member of no field added. -/
theorem rearranged_kindBehind
    (hf : ∀ u, HasForm p [("content", u), ("kind", .text kind)] form)
    (hf' : HasForm p [("kind", .text kind), ("content", w)] form)
    (hq : ("content", q) ∈ form.fields) (hextra : Foreign form.fields extra)
    (h : Rearranged q v w) : Rearranged p (kindBehind kind v) (kindInFront kind extra w) := by
  have hcontent : Rearranged p (kindBehind kind v) (kindBehind kind w) :=
    h.lift (kindBehind kind) fun u _ hchange =>
      .member [] _ (hf u) hq (Json.sameName_self "content") hchange
  have hmoved : Change p (kindBehind kind w) (.object [("kind", .text kind), ("content", w)]) :=
    .permute (hf w) (.swap _ _ _)
  have hadded : Change p (.object [("kind", .text kind), ("content", w)])
      (kindInFront kind extra w) :=
    .insert [("kind", .text kind)] [("content", w)] hf' hextra
  exact (hcontent.tail hmoved).tail hadded

end Kind

theorem rearranged_singleton {p q : Role} (hq : p.items? = some q) {v w : Json}
    (h : Rearranged q v w) : Rearranged p (.array [v]) (.array [w]) :=
  h.lift (fun u => Json.array [u]) fun _ _ hchange => Change.item [] [] hq hchange

/-- The form of an object whose kind is known. -/
theorem hasForm_node {k : Kind} {members : List (String × Json)}
    (h : lastText "kind" members = k.name) : HasForm (.part .node) members (.node k) :=
  .node ((lastText_eq_iff k.name_ne_empty).mp h)

theorem hasForm_document {k : DocumentKind} {members : List (String × Json)}
    (h : lastText "kind" members = k.name) : HasForm .document members (.document k) :=
  .document ((lastText_eq_iff k.name_ne_empty).mp h)

/-- A group with a text in it, each with its kind behind. -/
def groupBehind : Json := kindBehind "arg.group" (.array [kindBehind "text.string" (.text "a")])

/-- The group with the kinds in front.  A group has no name, and a text has no list of
arguments. -/
def groupInFront : Json :=
  kindInFront "arg.group" "name" (.array [kindInFront "text.string" "args" (.text "a")])

theorem unambiguous_groupBehind : Unambiguous (.part .node) groupBehind := by
  have htext : Unambiguous (.part .node) (kindBehind "text.string" (.text "a")) :=
    unambiguous_kindBehind (hasForm_node (k := .text) rfl) (q := .part .text) (by decide)
      (.atom _ _)
  refine unambiguous_kindBehind (hasForm_node (k := .group) rfl) (q := .part .nodes) (by decide) ?_
  refine .array fun q hq => List.forall_mem_singleton.mpr ?_
  cases hq
  exact htext

theorem rearranged_groupBehind : Rearranged (.part .node) groupBehind groupInFront := by
  have htext : Rearranged (.part .node) (kindBehind "text.string" (.text "a"))
      (kindInFront "text.string" "args" (.text "a")) :=
    rearranged_kindBehind (fun _ => hasForm_node (k := .text) rfl) (hasForm_node rfl)
      (q := .part .text) (by decide) (by decide) .refl
  exact rearranged_kindBehind (fun _ => hasForm_node (k := .group) rfl) (hasForm_node rfl)
    (q := .part .nodes) (by decide) (by decide) (rearranged_singleton rfl htext)

theorem integral_kindBehind {kind : String} {v : Json} (h : v.Integral) :
    (kindBehind kind v).Integral :=
  Json.integral_object (List.forall_mem_cons.mpr
    ⟨h, List.forall_mem_singleton.mpr (Json.integral_text kind)⟩)

theorem integral_kindInFront {kind extra : String} {v : Json} (h : v.Integral) :
    (kindInFront kind extra v).Integral :=
  Json.integral_object (List.forall_mem_cons.mpr ⟨Json.integral_text kind,
    List.forall_mem_cons.mpr ⟨Json.integral_int 7, List.forall_mem_singleton.mpr h⟩⟩)

theorem integral_singleton {v : Json} (h : v.Integral) : (Json.array [v]).Integral :=
  Json.integral_array (List.forall_mem_singleton.mpr h)

/-- The group is read as the same with its kinds in front, by itself, in a list, and in a
document, which passes over a rest. -/
theorem decode?_groupInFront :
    Node.decode? groupInFront.chars = .ok (.enclosed .group (some [.text "a" none]) none) ∧
    Node.decodeList? (Json.array [groupInFront]).chars =
      .ok (some [.enclosed .group (some [.text "a" none]) none]) ∧
    Document.decode? (kindInFront "ast.root" "rest" (.array [groupInFront])).chars =
      .ok (.root (some [.enclosed .group (some [.text "a" none]) none]) []) := by
  have hbehind : groupBehind.Integral :=
    integral_kindBehind (integral_singleton (integral_kindBehind (Json.integral_text "a")))
  have hfront : groupInFront.Integral :=
    integral_kindInFront (integral_singleton (integral_kindInFront (Json.integral_text "a")))
  have hlist : Unambiguous (.part .nodes) (.array [groupBehind]) := by
    refine .array fun q hq => List.forall_mem_singleton.mpr ?_
    cases hq
    exact unambiguous_groupBehind
  have hrearranged : Rearranged (.part .nodes) (.array [groupBehind]) (.array [groupInFront]) :=
    rearranged_singleton rfl rearranged_groupBehind
  obtain ⟨hnode, hnodes, hdocument⟩ := decode?_eq_of_rearrangedText
  refine ⟨hnode groupBehind.chars _ _ ?_ ?_, hnodes (Json.array [groupBehind]).chars _ _ ?_ ?_,
    hdocument (kindBehind "ast.root" (.array [groupBehind])).chars _ _ ?_ ?_⟩
  · exact ⟨_, _, Json.spells_chars hbehind, unambiguous_groupBehind, rearranged_groupBehind,
      Json.spells_chars hfront, by decide⟩
  · rw [Node.decode?, Json.parse?_eq_some_iff.mpr ⟨Json.spells_chars hbehind, by decide⟩]
    rfl
  · exact ⟨_, _, Json.spells_chars (integral_singleton hbehind), hlist, hrearranged,
      Json.spells_chars (integral_singleton hfront), by decide⟩
  · rw [Node.decodeList?,
      Json.parse?_eq_some_iff.mpr ⟨Json.spells_chars (integral_singleton hbehind), by decide⟩]
    rfl
  · refine ⟨_, _, Json.spells_chars (integral_kindBehind (integral_singleton hbehind)),
      unambiguous_kindBehind (hasForm_document (k := .root) rfl) (by decide) hlist,
      rearranged_kindBehind (fun _ => hasForm_document (k := .root) rfl) (hasForm_document rfl)
        (by decide) (by decide) hrearranged,
      Json.spells_chars (integral_kindInFront (integral_singleton hfront)), by decide⟩
  · rw [Document.decode?, Json.parse?_eq_some_iff.mpr
      ⟨Json.spells_chars (integral_kindBehind (integral_singleton hbehind)), by decide⟩]
    rfl

end TexTree

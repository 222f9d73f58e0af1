/-
TexTree/Proofs/Codec/FieldWise.lean

Reading an object does not see a reshuffle of its members: another order, members of
no field in between, or other values that are read as the same.

    ms.foldl put s = ns.foldl put s        where `ns` is `ms`, reshuffled

Design.  Reading an object is a walk down its members.  It passes over members of no
field, it may take members of different fields in either order, and of a member it
uses nothing but what is read from its value.  These are the three laws of
`FieldWise`, and `FieldWise.foldl_eq` needs no more.  The laws are shown one field at
a time (`FieldWise.cons`), and at once for all kinds of nodes and of documents
(`fieldWise_find`).
-/
import TexTree.Proofs.Codec.Roles
import Mathlib.Data.List.Pairwise
import Mathlib.Data.List.Perm.Basic

namespace TexTree

open Json (sameName)

/-! ### What is read in a role -/

/-- What is read in a role. -/
def Role.State : Role → Type
  | .part .text => String
  | .part .word => Int64
  | .part .point => Point
  | .part .location => Option Location
  | .part .nodes => Option (List Node)
  | .part .argument => Option (Argument Node)
  | .part .node => Option Node
  | .comment => Comment
  | .comments => CommentDraft
  | .document => Option Document

/-- The value, read over what is there. -/
def Role.read : (p : Role) → p.State → Json → p.State
  | .part .text, s, v => textOr s v
  | .part .word, s, v => wordOr s v
  | .part .point, s, v => Point.merge s v
  | .part .location, s, v => Location.merge s v
  | .part .nodes, s, v => nodesOr s v
  | .part .argument, s, v => argumentOr s v
  | .part .node, _, v => (Node.ofJson? v).toOption
  | .comment, s, v => Comment.merge s v
  | .comments, s, v => CommentDraft.merge s v
  | .document, _, v => (Document.ofJson? v).toOption

/-- The value `w` can be read in the role, without ambiguity, and as what `v` is read as. -/
structure SameReading (p : Role) (v w : Json) : Prop where
  accepts : p.Accepts w
  unambiguous : Unambiguous p w
  read : ∀ s, p.read s v = p.read s w

/-! ### Reshuffles -/

/-- One list of members is turned into the other: by putting them in another order, by a
member of no field, or by another value that is read as the same. -/
inductive Reshuffled (fields : List (String × Role)) :
    List (String × Json) → List (String × Json) → Prop
  | perm {ms ns : List (String × Json)} (h : ms.Perm ns) : Reshuffled fields ms ns
  | insert (before after : List (String × Json)) {m : String × Json} (h : Foreign fields m.1) :
      Reshuffled fields (before ++ after) (before ++ m :: after)
  | value (before after : List (String × Json)) {name : String} {v w : Json}
      (h : ∀ t ∈ fields, sameName t.1 name → SameReading t.2 v w) :
      Reshuffled fields (before ++ (name, v) :: after) (before ++ (name, w) :: after)

namespace Reshuffled

variable {fields : List (String × Role)} {ms ns : List (String × Json)}

/-- The members of fields are the same in each role, or have got a value that is read as the
same. -/
theorem forall_fields {P : Role → Json → Prop} (hP : ∀ {p v w}, SameReading p v w → P p w)
    (h : Reshuffled fields ms ns)
    (hms : ∀ m ∈ ms, ∀ t ∈ fields, sameName t.1 m.1 → P t.2 m.2) :
    ∀ m ∈ ns, ∀ t ∈ fields, sameName t.1 m.1 → P t.2 m.2 := by
  cases h with
  | perm h => exact fun m hm => hms m (h.mem_iff.mpr hm)
  | insert before after hforeign =>
    rw [List.forall_mem_append] at hms
    rw [List.forall_mem_append, List.forall_mem_cons]
    refine ⟨hms.1, fun t ht hname => ?_, hms.2⟩
    rw [hforeign t ht] at hname
    cases hname
  | value before after hvalue =>
    rw [List.forall_mem_append, List.forall_mem_cons] at hms ⊢
    exact ⟨hms.1, fun t ht hname => hP (hvalue t ht hname), hms.2.2⟩

/-- A reshuffle gives no field a second member. -/
theorem distinct (h : Reshuffled fields ms ns) (hd : Distinct fields ms) : Distinct fields ns := by
  have hsymm : ∀ {m n : String × Json}, Separate fields m n → Separate fields n m :=
    Separate.symm
  cases h with
  | perm h => exact (h.pairwise_iff hsymm).mp hd
  | insert before after hforeign =>
    rw [Distinct, List.perm_middle.pairwise_iff hsymm, List.pairwise_cons]
    refine ⟨fun n _ t ht hboth => ?_, hd⟩
    rw [hforeign t ht] at hboth
    cases hboth.1
  | value before after hvalue =>
    rw [Distinct, List.perm_middle.pairwise_iff hsymm, List.pairwise_cons] at hd ⊢
    exact hd

end Reshuffled

/-! ### Walks that go by fields -/

/-- Each member has an effect on its own field only, through what is read from it. -/
structure FieldWise {σ : Type} (fields : List (String × Role)) (put : σ → String × Json → σ) :
    Prop where
  foreign : ∀ {m : String × Json}, Foreign fields m.1 → ∀ s, put s m = s
  comm : ∀ {m n : String × Json}, Separate fields m n → ∀ s, put (put s m) n = put (put s n) m
  congr : ∀ {name : String} {v w : Json},
    (∀ t ∈ fields, sameName t.1 name → SameReading t.2 v w) → ∀ s, put s (name, v) = put s (name, w)

namespace FieldWise

variable {σ : Type} {fields : List (String × Role)} {put : σ → String × Json → σ}

/-- **A walk that goes by fields does not see a reshuffle.** -/
theorem foldl_eq (hput : FieldWise fields put) {ms ns : List (String × Json)}
    (hd : Distinct fields ms) (h : Reshuffled fields ms ns) (s : σ) :
    ms.foldl put s = ns.foldl put s := by
  cases h with
  | perm h =>
    refine h.foldl_eq' (fun m hm n hn s => ?_) s
    by_cases hmn : m = n
    · rw [hmn]
    · have hsymm : Std.Symm (Separate fields) := ⟨fun _ _ => Separate.symm⟩
      exact hput.comm (hd.forall hm hn hmn) s
  | insert before after h =>
    rw [List.foldl_append, List.foldl_append, List.foldl_cons, hput.foreign h]
  | value before after h =>
    rw [List.foldl_append, List.foldl_append, List.foldl_cons, List.foldl_cons, hput.congr h]

/-- More fields than a walk uses do no harm. -/
theorem mono (hput : FieldWise fields put) {fields' : List (String × Role)}
    (hsub : fields ⊆ fields') : FieldWise fields' put where
  foreign h := hput.foreign fun t ht => h t (hsub ht)
  comm h := hput.comm fun t ht => h t (hsub ht)
  congr h := hput.congr fun t ht => h t (hsub ht)

theorem nil : FieldWise [] fun (s : σ) (_ : String × Json) => s where
  foreign _ _ := rfl
  comm _ _ := rfl
  congr _ _ := rfl

/-- A field may be asked for in front of others that do not touch what it sets. -/
theorem cons (hput : FieldWise fields put) (name : String) {p : Role} (set : σ → Json → σ)
    (hcomm : ∀ s v m, put (set s v) m = set (put s m) v)
    (hset : ∀ {v w}, SameReading p v w → ∀ s, set s v = set s w) :
    FieldWise ((name, p) :: fields)
      fun s m => if sameName name m.1 then set s m.2 else put s m where
  foreign {m} hm s := by
    obtain ⟨hname, hrest⟩ := List.forall_mem_cons.mp hm
    rw [hname]
    exact hput.foreign hrest s
  comm {m n} hmn s := by
    obtain ⟨hnot, hrest⟩ := List.forall_mem_cons.mp hmn
    cases hm : sameName name m.1 with
    | false =>
      cases hn : sameName name n.1 with
      | false => exact hput.comm hrest s
      | true => exact (hcomm s n.2 m).symm
    | true =>
      cases hn : sameName name n.1 with
      | false => exact hcomm s m.2 n
      | true => exact absurd ⟨hm, hn⟩ hnot
  congr {key v w} h s := by
    obtain ⟨hfirst, hrest⟩ := List.forall_mem_cons.mp h
    dsimp only
    split
    · next hname => exact hset (hfirst hname) s
    · exact hput.congr hrest s

end FieldWise

/-- Where a name selects the field, the fields may be filled in any order when any two of
them may. -/
theorem fieldWise_find {F σ : Type} (fs : List F) (key : F → String) (role : F → Role)
    (fill : σ → Json → F → σ)
    (hcomm : ∀ {f g}, f ≠ g → ∀ s v w, fill (fill s v f) w g = fill (fill s w g) v f)
    (hfill : ∀ f {v w}, SameReading (role f) v w → ∀ s, fill s v f = fill s w f) :
    FieldWise (fs.map fun f => (key f, role f)) fun s m =>
      (fs.find? fun f => sameName (key f) m.1).elim s (fill s m.2) := by
  -- the field that is found is one of the fields, and bears the name
  have hfound : ∀ {name : String} {f : F}, (fs.find? fun f => sameName (key f) name) = some f →
      (key f, role f) ∈ fs.map (fun f => (key f, role f)) ∧ sameName (key f) name := by
    intro name f hf
    have hname := List.find?_some hf
    exact ⟨List.mem_map_of_mem (List.mem_of_find?_eq_some hf), hname⟩
  refine ⟨fun {m} hm s => ?_, fun {m n} hmn s => ?_, fun {name v w} h s => ?_⟩
  · cases hf : fs.find? fun f => sameName (key f) m.1 with
    | none => rfl
    | some f =>
      obtain ⟨hmem, hname⟩ := hfound hf
      rw [hm _ hmem] at hname
      cases hname
  · cases hf : fs.find? fun f => sameName (key f) m.1 with
    | none => rfl
    | some f =>
      cases hg : fs.find? fun f => sameName (key f) n.1 with
      | none => rfl
      | some g =>
        refine hcomm (fun hfg => ?_) s m.2 n.2
        subst hfg
        exact hmn _ (hfound hf).1 ⟨(hfound hf).2, (hfound hg).2⟩
  · cases hf : fs.find? fun f => sameName (key f) name with
    | none => rfl
    | some f =>
      simp only [Option.elim_some]
      exact hfill f (h _ (hfound hf).1 (hfound hf).2) s

/-! ### The walks of the reader -/

theorem fieldWise_lastText (name : String) :
    FieldWise [(name, .part .text)]
      fun (s : String) (m : String × Json) => if sameName name m.1 then textOr s m.2 else s :=
  FieldWise.nil.cons name textOr (fun _ _ _ => rfl) SameReading.read

theorem fieldWise_point :
    FieldWise [("offset", .part .word), ("line", .part .word), ("column", .part .word)]
      Point.put := by
  have hcolumn : FieldWise [("column", .part .word)] _ :=
    FieldWise.nil.cons "column" (fun p v => { p with column := wordOr p.column v })
      (fun _ _ _ => rfl) fun h (p : Point) => congrArg (fun n => { p with column := n }) (h.read _)
  have hline : FieldWise [("line", .part .word), ("column", .part .word)] _ :=
    hcolumn.cons "line" (fun p v => { p with line := wordOr p.line v })
      (by intro p v m; dsimp only; split <;> rfl)
      fun h (p : Point) => congrArg (fun n => { p with line := n }) (h.read _)
  exact hline.cons "offset" (fun p v => { p with offset := wordOr p.offset v })
    (by intro p v m; dsimp only; split_ifs <;> rfl)
    fun h (p : Point) => congrArg (fun n => { p with offset := n }) (h.read _)

theorem fieldWise_location :
    FieldWise [("start", .part .point), ("end", .part .point)] Location.put := by
  have hend : FieldWise [("end", .part .point)] _ :=
    FieldWise.nil.cons "end" (fun l v => { l with stop := l.stop.merge v })
      (fun _ _ _ => rfl) fun h (l : Location) => congrArg (fun p => { l with stop := p }) (h.read _)
  exact hend.cons "start" (fun l v => { l with start := l.start.merge v })
    (by intro l v m; dsimp only; split <;> rfl)
    fun h (l : Location) => congrArg (fun p => { l with start := p }) (h.read _)

theorem fieldWise_comment :
    FieldWise [("content", .part .text), ("location", .part .location)] Comment.put := by
  have hlocation : FieldWise [("location", .part .location)] _ :=
    FieldWise.nil.cons "location" (fun c v => { c with loc := Location.merge c.loc v })
      (fun _ _ _ => rfl) fun h (c : Comment) => congrArg (fun l => { c with loc := l }) (h.read _)
  exact hlocation.cons "content" (fun c v => { c with content := textOr c.content v })
    (by intro c v m; dsimp only; split <;> rfl)
    fun h (c : Comment) => congrArg (fun t => { c with content := t }) (h.read _)

theorem fieldWise_argument :
    FieldWise [("content", .part .nodes), ("location", .part .location)] Node.overArgument := by
  have hlocation : FieldWise [("location", .part .location)] _ :=
    FieldWise.nil.cons "location" (fun a v => { a with loc := Location.merge a.loc v })
      (fun _ _ _ => rfl)
      fun h (a : Argument Node) => congrArg (fun l => { a with loc := l }) (h.read _)
  exact hlocation.cons "content" (fun a v => { a with content := nodesOr a.content v })
    (by intro a v m; dsimp only; split <;> rfl)
    fun h (a : Argument Node) => congrArg (fun ns => { a with content := ns }) (h.read _)

theorem fieldWise_draft (k : Kind) :
    FieldWise (k.fields.map fun f => (f.key, .part f.shape)) (Draft.readOver k) := by
  refine fieldWise_find k.fields Field.key (fun f => .part f.shape) Draft.fill ?_ ?_
  · intro f g hfg d v w
    cases f <;> cases g <;> simp_all [Draft.fill, Draft.put]
  · intro f v w h d
    cases f <;> simp only [Draft.fill, Draft.put, Draft.mk.injEq, true_and, and_true] <;>
      exact h.read _

theorem fieldWise_documentDraft (k : DocumentKind) :
    FieldWise (k.fields.map fun f => (f.key, f.role)) (DocumentDraft.readOver k) := by
  refine fieldWise_find k.fields DocumentField.key DocumentField.role DocumentDraft.fill ?_ ?_
  · intro f g hfg d v w
    cases f <;> cases g <;> simp_all [DocumentDraft.fill]
  · intro f v w h d
    cases f <;> simp only [DocumentDraft.fill, DocumentDraft.mk.injEq, true_and, and_true] <;>
      exact h.read _

/-! ### Objects -/

section Object

variable {p : Role} {ms ns : List (String × Json)} {form : Form}

theorem LastText.reshuffled {fields : List (String × Role)} (hkind : ("kind", .part .text) ∈ fields)
    (hd : Distinct fields ms) (h : Reshuffled fields ms ns) {s : String} (hs : s ≠ "")
    (hlast : LastText "kind" ms s) : LastText "kind" ns s := by
  rw [← lastText_eq_iff hs] at hlast ⊢
  have hwalk := (fieldWise_lastText "kind").mono (List.cons_subset.mpr ⟨hkind, List.nil_subset _⟩)
  rw [← hlast]
  exact (hwalk.foldl_eq hd h "").symm

/-- A reshuffled object has the form that it had. -/
theorem HasForm.reshuffled (hf : HasForm p ms form) (hd : Distinct form.fields ms)
    (h : Reshuffled form.fields ms ns) : HasForm p ns form := by
  cases hf with
  | fixed _ hfields => exact .fixed ns hfields
  | @node _ k hk => exact .node (hk.reshuffled List.mem_cons_self hd h k.name_ne_empty)
  | @document _ k hk => exact .document (hk.reshuffled List.mem_cons_self hd h k.name_ne_empty)

/-- What is read from an object is a walk over its members, so a reshuffle does not matter. -/
theorem HasForm.read_eq (hf : HasForm p ms form) (ha : p.Accepts (.object ms))
    (ha' : p.Accepts (.object ns)) (hd : Distinct form.fields ms)
    (h : Reshuffled form.fields ms ns) (s : p.State) :
    p.read s (.object ms) = p.read s (.object ns) := by
  have hf' := hf.reshuffled hd h
  cases hf with
  | fixed _ hfields =>
    cases p with
    | part shape =>
      cases shape with
      | point =>
        cases hfields
        exact fieldWise_point.foldl_eq hd h s
      | location =>
        cases hfields
        exact congrArg some (fieldWise_location.foldl_eq hd h _)
      | argument =>
        cases hfields
        change Option (Argument Node) at s
        calc argumentOr s (.object ms)
            = some (ms.foldl Node.overArgument (s.getD {})) := Node.argumentOr_object ha s
          _ = some (ns.foldl Node.overArgument (s.getD {})) := by
            rw [fieldWise_argument.foldl_eq hd h]
          _ = argumentOr s (.object ns) := (Node.argumentOr_object ha' s).symm
      | text | word | nodes | node => cases hfields
    | comment =>
      cases hfields
      exact fieldWise_comment.foldl_eq hd h s
    | comments | document => cases hfields
  | @node _ k hk =>
    cases hf' with
    | node hk' =>
      have hsub : (k.fields.map fun f => (f.key, Role.part f.shape)) ⊆ rolesOf k.memberTypes := by
        rw [rolesOf, Kind.memberTypes, List.map_cons, List.map_map]
        exact List.subset_cons_self _ _
      have hwalk := (fieldWise_draft k).mono hsub
      show (Node.ofJson? _).toOption = (Node.ofJson? _).toOption
      rw [Node.ofJson?_object hk ha, Node.ofJson?_object hk' ha', hwalk.foldl_eq hd h]
  | @document _ k hk =>
    cases hf' with
    | document hk' =>
      have hwalk := (fieldWise_documentDraft k).mono (List.subset_cons_self ("kind", .part .text) _)
      show (Document.ofJson? _).toOption = (Document.ofJson? _).toOption
      rw [Document.ofJson?_object hk ha, Document.ofJson?_object hk' ha', hwalk.foldl_eq hd h]

/-- **A reshuffled object is read as the same.** -/
theorem sameReading_object (hf : HasForm p ms form) (hu : Unambiguous p (.object ms))
    (ha : p.Accepts (.object ms)) (h : Reshuffled form.fields ms ns) :
    SameReading p (.object ms) (.object ns) := by
  cases hu with
  | object hdistinct hmembers =>
    have hd := hdistinct form hf
    have hf' := hf.reshuffled hd h
    have ha' : p.Accepts (.object ns) := by
      rw [accepts_object_iff hf']
      rw [accepts_object_iff hf] at ha
      exact h.forall_fields SameReading.accepts ha
    have hu' : Unambiguous p (.object ns) := unambiguous_object hf' (h.distinct hd)
      (h.forall_fields SameReading.unambiguous (hmembers form hf))
    exact ⟨ha', hu', hf.read_eq ha ha' hd h⟩

end Object

/-! ### Arrays -/

theorem eq_ok_of_toOption_eq {ε α : Type} {r r' : Except ε α} {a : α}
    (h : r.toOption = r'.toOption) (hr : r = .ok a) : r' = .ok a := by
  subst hr
  cases r' with
  | error e => cases h
  | ok b => exact congrArg Except.ok (Option.some.inj h).symm

theorem Node.itemsOfJson?_congr {v w : Json} (h : ofJson? v = ofJson? w) (before after : List Json)
    (index : Nat) :
    itemsOfJson? index (before ++ v :: after) = itemsOfJson? index (before ++ w :: after) := by
  induction before generalizing index with
  | nil => rw [List.nil_append, List.nil_append, itemsOfJson?_cons, itemsOfJson?_cons, h]
  | cons u before ih =>
    rw [List.cons_append, List.cons_append, itemsOfJson?_cons, itemsOfJson?_cons, ih]

theorem nodesOr_array_congr {v w : Json} (h : Node.ofJson? v = Node.ofJson? w)
    (before after : List Json) (old : Option (List Node)) :
    nodesOr old (.array (before ++ v :: after)) = nodesOr old (.array (before ++ w :: after)) := by
  rw [nodesOr, nodesOr, Node.listOfJson?_array, Node.listOfJson?_array, Node.itemsOfJson?_congr h]

theorem CommentDraft.overlay_congr {v w : Json} (h : ∀ c : Comment, c.merge v = c.merge w)
    (before after : List Json) (cs : List Comment) :
    overlay cs (before ++ v :: after) = overlay cs (before ++ w :: after) := by
  induction before generalizing cs with
  | nil => cases cs <;> simp only [List.nil_append, overlay, h]
  | cons u before ih => cases cs <;> simp only [List.cons_append, overlay, ih]

theorem CommentDraft.merge_array_congr {v w : Json} (h : ∀ c : Comment, c.merge v = c.merge w)
    (before after : List Json) (d : CommentDraft) :
    d.merge (.array (before ++ v :: after)) = d.merge (.array (before ++ w :: after)) := by
  have hmerge : ∀ u : Json, d.merge (.array (before ++ u :: after)) =
      ⟨overlay d.remembered (before ++ u :: after), before.length + (after.length + 1)⟩ := by
    intro u
    rw [merge]
    · rw [List.length_append, List.length_cons]
    · simp
  rw [hmerge, hmerge, overlay_congr h]

/-- An array is read as the same when one of its items is. -/
theorem sameReading_array {p q : Role} (hq : p.items? = some q) {before after : List Json}
    {v w : Json} (hu : Unambiguous p (.array (before ++ v :: after)))
    (ha : p.Accepts (.array (before ++ v :: after))) (h : SameReading q v w) :
    SameReading p (.array (before ++ v :: after)) (.array (before ++ w :: after)) := by
  rw [accepts_array_iff hq, List.forall_mem_append, List.forall_mem_cons] at ha
  refine ⟨?_, ?_, fun s => ?_⟩
  · rw [accepts_array_iff hq, List.forall_mem_append, List.forall_mem_cons]
    exact ⟨ha.1, h.accepts, ha.2.2⟩
  · cases hu with
    | array hitems =>
      have hitems := hitems q hq
      rw [List.forall_mem_append, List.forall_mem_cons] at hitems
      refine .array fun r hr => ?_
      rw [Option.some.inj (hr.symm.trans hq), List.forall_mem_append, List.forall_mem_cons]
      exact ⟨hitems.1, h.unambiguous, hitems.2.2⟩
  · unfold Role.items? at hq
    split at hq
    · cases hq
      obtain ⟨n, hv⟩ := (reads_iff_hasType v .node).mpr ha.2.1
      have hw := eq_ok_of_toOption_eq (h.read none) hv
      exact nodesOr_array_congr (hv.trans hw.symm) before after s
    · cases hq
      exact CommentDraft.merge_array_congr h.read before after s
    · cases hq

end TexTree

/-
TexTree/Proofs/Source/Encoding.lean

Sources in characters and in bytes.  A tree whose texts are strings can be taken for one
whose texts are their bytes, and it is then written as the bytes of its source:

    (n.map Utf8.bytes).written (Utf8.encode b)  =  Utf8.encode (n.written b)

Design.  The two writers are one definition, so only what they are given for texts, markup
and trimming is compared: `encode` goes through all of them (`Utf8.encode_append`,
`Utf8.trim_encode`).  The induction is on the children of a node, for all line breaks at
once, since the arguments of program listings are written with another one than the node.
-/
import TexTree.Proofs.Source.Spacing
import TexTree.Proofs.Text.Bytes

namespace TexTree

/-! ### Texts of another type -/

namespace Node

variable {τ σ : Type}

mutual

/-- The tree with `f` applied to each text in it. -/
def map (f : τ → σ) : Node τ → Node σ
  | .text content loc => .text (f content) loc
  | .mathChar content loc => .mathChar (f content) loc
  | .command name args loc => .command (f name) (mapOption f args) loc
  | .textCommand arg loc => .textCommand (mapArgument f arg) loc
  | .letCommand name token target loc => .letCommand (f name) (f token) (f target) loc
  | .defCommand name token args loc => .defCommand (f name) (f token) (mapOption f args) loc
  | .environment flavour name args content loc =>
    .environment flavour (f name) (mapOption f args) (mapOption f content) loc
  | .enclosed e content loc => .enclosed e (mapOption f content) loc
  | .delimited left right content loc => .delimited (f left) (f right) (mapOption f content) loc
  | .mark m loc => .mark m loc
  | .parameter number loc => .parameter (f number) loc
  | .verb name escape content loc => .verb (f name) (f escape) (f content) loc
  | .verbatim name content loc => .verbatim (f name) (f content) loc
  | .minted name args content loc => .minted (f name) (mapOption f args) (f content) loc
  | .listing name arg content loc => .listing (f name) (mapArgument f arg) (f content) loc

/-- The trees with `f` applied to each text in them. -/
def mapList (f : τ → σ) : List (Node τ) → List (Node σ)
  | [] => []
  | n :: ns => map f n :: mapList f ns

/-- The trees of a list that may be missing. -/
def mapOption (f : τ → σ) : Option (List (Node τ)) → Option (List (Node σ))
  | none => none
  | some ns => some (mapList f ns)

/-- The trees of a single argument that may be missing. -/
def mapArgument (f : τ → σ) : Option (Argument (Node τ)) → Option (Argument (Node σ))
  | none => none
  | some ⟨content, loc⟩ => some ⟨mapOption f content, loc⟩

end

variable (f : τ → σ)

@[simp] theorem mapList_eq (ns : List (Node τ)) : mapList f ns = ns.map (map f) := by
  induction ns with
  | nil => rfl
  | cons n ns ih => rw [mapList, ih, List.map_cons]

@[simp] theorem getD_mapOption (ns : Option (List (Node τ))) :
    (mapOption f ns).getD [] = (ns.getD []).map (map f) := by
  cases ns with
  | none => rfl
  | some ns => rw [mapOption, mapList_eq, Option.getD_some, Option.getD_some]

/-- The children of the tree are those of the old one, with their texts changed. -/
theorem children_map (n : Node τ) : (n.map f).children = n.children.map (map f) := by
  cases n with
  | textCommand arg => cases arg <;> simp [map, mapArgument, children, Argument.toNode]
  | listing name arg => cases arg <;> simp [map, mapArgument, children, Argument.toNode]
  | _ => simp [map, children]

theorem needsSpace_map (n m : Node τ) : (n.map f).needsSpace (m.map f) = n.needsSpace m := by
  cases n with
  | command => cases m <;> simp [map, needsSpace, isBareCommand]
  | _ => cases m <;> rfl

end Node

/-! ### The bytes of a source -/

@[simp] theorem spell_bytes (s : String) :
    (Script.spell (Utf8.bytes s) : List UInt8) = Utf8.encode s.toList :=
  Utf8.bytes_eq_encode s

@[simp] theorem markup_bytes (s : List Char) : (Script.markup s : List UInt8) = Utf8.encode s := rfl

theorem encode_controlWord (name : List Char) :
    controlWord (Utf8.encode name) = Utf8.encode (controlWord name) := by
  simp only [controlWord, markup_bytes, markup_chars, Utf8.encode_append]

theorem encode_beginning (name : List Char) :
    beginning (Utf8.encode name) = Utf8.encode (beginning name) := by
  simp only [beginning, encode_controlWord, markup_bytes, markup_chars, Utf8.encode_append]

theorem encode_ending (name : List Char) :
    ending (Utf8.encode name) = Utf8.encode (ending name) := by
  simp only [ending, encode_controlWord, markup_bytes, markup_chars, Utf8.encode_append]

theorem encode_environmentSource (b name args content : List Char) :
    environmentSource (Utf8.encode b) (Utf8.encode name) (Utf8.encode args) (Utf8.encode content) =
      Utf8.encode (environmentSource b name args content) := by
  have htrim (s : List Char) : (Script.trim (Utf8.encode s) : List UInt8) = Utf8.encode (trim s) :=
    Utf8.trim_encode s
  simp only [environmentSource, encode_beginning, encode_ending, htrim, trim_chars,
    List.flatten_cons, List.flatten_nil, Utf8.encode_append, List.append_nil]

theorem Enclosure.encode_enclose (b : List Char) (e : Enclosure) (body : List Char) :
    e.enclose (Utf8.encode b) (Utf8.encode body) = Utf8.encode (e.enclose b body) := by
  have htrim (s : List Char) : (Script.trim (Utf8.encode s) : List UInt8) = Utf8.encode (trim s) :=
    Utf8.trim_encode s
  cases e with
  | displayMath =>
    simp only [enclose, htrim, trim_chars, markup_bytes, markup_chars, List.flatten_cons,
      List.flatten_nil, Utf8.encode_append, List.append_nil]
  | _ => simp only [enclose, markup_bytes, markup_chars, Utf8.encode_append]

namespace Node

theorem encode_writtenList {b : List Char} {ns : List Node}
    (h : ∀ n ∈ ns, (n.map Utf8.bytes).written (Utf8.encode b) = Utf8.encode (n.written b)) :
    writtenList (Utf8.encode b) (ns.map (map Utf8.bytes)) = Utf8.encode (writtenList b ns) := by
  induction ns with
  | nil => rfl
  | cons n ns ih =>
    obtain ⟨hn, hns⟩ := List.forall_mem_cons.mp h
    have hgap (m : Node) : (gap (n.map Utf8.bytes) (m.map Utf8.bytes) : List UInt8) =
        Utf8.encode (gap n m) := by
      rw [gap, gap, needsSpace_map]
      split <;> rfl
    rw [List.map_cons, writtenList_cons, writtenList_cons, Utf8.encode_append, hn]
    cases ns with
    | nil => rfl
    | cons m ns =>
      rw [List.map_cons, writtenBehind, writtenBehind, hgap, Utf8.encode_append, ← ih hns,
        List.map_cons]

/-- What holds of the children of a node holds of the node. -/
theorem encode_written_of_children (n : Node)
    (ih : ∀ m ∈ n.children, ∀ b,
      (m.map Utf8.bytes).written (Utf8.encode b) = Utf8.encode (m.written b))
    (b : List Char) : (n.map Utf8.bytes).written (Utf8.encode b) = Utf8.encode (n.written b) := by
  have hlist : ∀ ns : Option (List Node), (∀ m ∈ ns.getD [], m ∈ n.children) →
      ∀ b, writtenOption (Utf8.encode b) (mapOption Utf8.bytes ns) =
        Utf8.encode (writtenOption b ns) := by
    intro ns hsub b
    rw [writtenOption_eq, writtenOption_eq, getD_mapOption]
    exact encode_writtenList fun m hm => ih m (hsub m hm) b
  have hargument : ∀ (e : Enclosure) (arg : Option (Argument Node)),
      (∀ a ∈ arg, a.toNode e ∈ n.children) → ∀ b,
      writtenArgument (Utf8.encode b) e (mapArgument Utf8.bytes arg) =
        Utf8.encode (writtenArgument b e arg) := by
    intro e arg hsub b
    cases arg with
    | none => rfl
    | some a =>
      have hmap : mapArgument Utf8.bytes (some a) =
          some ⟨mapOption Utf8.bytes a.content, a.loc⟩ := rfl
      rw [hmap, writtenArgument_some, writtenArgument_some]
      exact ih _ (hsub a rfl) b
  cases n with
  | text content => exact spell_bytes content
  | mathChar content => exact spell_bytes content
  | command name args =>
    simp only [map, written, spell_bytes, spell_string, encode_controlWord,
      hlist args fun _ => id, Utf8.encode_append]
  | textCommand arg =>
    have harg := hargument .group arg (fun a ha => ha ▸ List.mem_cons_self) b
    simp only [map, written, markup_bytes, markup_chars, encode_controlWord, harg,
      Utf8.encode_append]
  | letCommand name token target =>
    simp only [map, written, spell_bytes, spell_string, markup_bytes, markup_chars,
      encode_controlWord, Utf8.encode_append]
  | defCommand name token args =>
    simp only [map, written, spell_bytes, spell_string, markup_bytes, markup_chars,
      encode_controlWord, hlist args fun _ => id, Utf8.encode_append]
  | environment flavour name args content =>
    simp only [map, written, spell_bytes, spell_string,
      hlist args fun _ => List.mem_append_right _, hlist content fun _ => List.mem_append_left _,
      encode_environmentSource]
  | enclosed e content =>
    simp only [map, written, hlist content fun _ => id, e.encode_enclose]
  | delimited left right content =>
    simp only [map, written, spell_bytes, spell_string, markup_bytes, markup_chars,
      encode_controlWord, hlist content fun _ => id, Utf8.encode_append]
  | mark m =>
    cases m with
    | parBreak =>
      simp only [map, written, Mark.source, markup_bytes, markup_chars, encode_controlWord,
        Utf8.encode_append]
    | alignmentTab | tie | ignored => rfl
  | parameter number =>
    simp only [map, written, spell_bytes, spell_string, markup_bytes, markup_chars,
      Utf8.encode_append]
  | verb name escape content =>
    simp only [map, written, spell_bytes, spell_string, markup_bytes, markup_chars,
      encode_controlWord, Utf8.encode_append]
  | verbatim name content =>
    simp only [map, written, spell_bytes, spell_string, markup_bytes, markup_chars,
      encode_beginning, encode_ending, Utf8.encode_append]
  | minted name args content =>
    have hargs := hlist args (fun _ => id) []
    rw [show Utf8.encode [] = [] from rfl] at hargs
    simp only [map, written, spell_bytes, spell_string, markup_bytes, markup_chars,
      encode_beginning, encode_ending, hargs, Utf8.encode_append]
  | listing name arg content =>
    have harg := hargument .optional arg (fun a ha => ha ▸ List.mem_cons_self) []
    rw [show Utf8.encode [] = [] from rfl] at harg
    simp only [map, written, spell_bytes, spell_string, markup_bytes, markup_chars,
      encode_beginning, encode_ending, harg, Utf8.encode_append]

/-- **A tree of strings is written in bytes as the bytes of its source.** -/
theorem written_map_bytes (n : Node) (b : List Char) :
    (n.map Utf8.bytes).written (Utf8.encode b) = Utf8.encode (n.written b) := by
  induction n using inductionOnChildren generalizing b with
  | step n ih => exact encode_written_of_children n ih b

theorem writtenList_map_bytes (ns : List Node) (b : List Char) :
    writtenList (Utf8.encode b) (ns.map (map Utf8.bytes)) = Utf8.encode (writtenList b ns) :=
  encode_writtenList fun n _ => written_map_bytes n b

end Node

end TexTree

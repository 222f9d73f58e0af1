/-
TexTree/Proofs/Source/Edges.lean

Blanks at the edges of what is trimmed.  The bodies of environments and of displayed
formulas are trimmed, so texts of blanks in front of them and behind them are not seen:

    source (\[ blanks ++ body ++ blanks \])  =  source (\[ body \])

and neither are they in the source of a forest in which the node stands, at any depth
(`source_eq_of_padded`).

Design.  Two things are to be seen.  In the node, the new siblings bring spaces next to
the old first and last ones, as blank as themselves, and whatever blanks the body has
there of its own, trimming takes all of them (`Padding.trim_writtenList_eq`).  Around
the node, a sibling is written by its source and by the spaces on its two sides, so that
two nodes which agree in both can stand for each other (`WrittenAlike`); and this is kept
by every shell, because what a list is made of shows outside in nothing but its source and
in whether it is empty (`writtenAlike_fill`).
-/
import TexTree.Proofs.Source.Spacing
import TexTree.Proofs.Text.Trim
import TexTree.Proofs.Tree.Shells

namespace TexTree

/-! ### Padded bodies -/

/-- The nodes are texts of blanks, or of nothing. -/
def BlankTexts (ns : List Node) : Prop :=
  ∃ contents, Node.Texts ns contents ∧ ∀ content ∈ contents, ∀ c ∈ content.toList, isBlank c

/-- The second list is the first with texts of blanks in front of it and behind it. -/
def Padding (ns ms : Option (List Node)) : Prop :=
  ∃ front back, BlankTexts front ∧ BlankTexts back ∧ ms.getD [] = front ++ ns.getD [] ++ back

/-- The second node is the first with texts of blanks at the edges of what is trimmed in it:
the arguments and the content of an environment, the content of a displayed formula. -/
inductive Padded : Node → Node → Prop
  | environment (flavour : Flavour) (name : String) (loc : Option Location)
      {args args' content content' : Option (List Node)} (hargs : Padding args args')
      (hcontent : Padding content content') :
      Padded (.environment flavour name args content loc)
        (.environment flavour name args' content' loc)
  | displayMath (loc : Option Location) {content content' : Option (List Node)}
      (hcontent : Padding content content') :
      Padded (.enclosed .displayMath content loc) (.enclosed .displayMath content' loc)

theorem BlankTexts.nil : BlankTexts [] := ⟨[], .nil, List.forall_mem_nil _⟩

theorem BlankTexts.cons {content : String} (hblank : ∀ c ∈ content.toList, isBlank c)
    (loc : Option Location) {ns : List Node} (h : BlankTexts ns) :
    BlankTexts (.text content loc :: ns) := by
  obtain ⟨contents, htexts, hall⟩ := h
  exact ⟨content :: contents, .cons content loc htexts, List.forall_mem_cons.mpr ⟨hblank, hall⟩⟩

/-- Texts of blanks are written as blanks. -/
theorem BlankTexts.isBlank_of_mem {ns : List Node} (h : BlankTexts ns) (b : List Char) :
    ∀ c ∈ Node.writtenList b ns, isBlank c := by
  obtain ⟨contents, htexts, hblank⟩ := h
  have hjoin : (String.join contents).toList.filter (fun c => !isBlank c) = [] := by
    rw [List.filter_eq_nil_iff, String.toList_join]
    intro c hc
    obtain ⟨content, hcontent, hc⟩ := List.mem_flatMap.mp hc
    simp [hblank content hcontent c hc]
  rw [← htexts.filter_writtenList_eq (by decide) b, List.filter_eq_nil_iff] at hjoin
  intro c hc
  simpa using hjoin c hc

/-- **Trimming takes away all that has been added.** -/
theorem Padding.trim_writtenList_eq {ns ms : Option (List Node)} (h : Padding ns ms)
    (b : List Char) :
    trim (Node.writtenList b (ns.getD [])) = trim (Node.writtenList b (ms.getD [])) := by
  obtain ⟨front, back, hfront, hback, hms⟩ := h
  obtain ⟨j, hj⟩ := Node.exists_writtenList_append_eq b front (ns.getD [])
  obtain ⟨k, hk⟩ := Node.exists_writtenList_append_eq b (front ++ ns.getD []) back
  have hspaces : ∀ {i : Nat}, ∀ c ∈ List.replicate i ' ', isBlank c := by
    intro i c hc
    rw [List.eq_of_mem_replicate hc]
    rfl
  have hbefore : ∀ c ∈ Node.writtenList b front ++ List.replicate j ' ', isBlank c :=
    List.forall_mem_append.mpr ⟨hfront.isBlank_of_mem b, hspaces⟩
  have hbehind : ∀ c ∈ List.replicate k ' ' ++ Node.writtenList b back, isBlank c :=
    List.forall_mem_append.mpr ⟨hspaces, hback.isBlank_of_mem b⟩
  rw [hms, hk, hj, List.append_assoc, trim_append_right hbehind, trim_append_left hbefore]

/-- A padded node is written like the node. -/
theorem Padded.written_eq {n m : Node} (h : Padded n m) (b : List Char) :
    n.written b = m.written b := by
  cases h with
  | environment flavour name loc hargs hcontent =>
    simp only [Node.written, Node.writtenOption_eq, environmentSource, trim_chars,
      hargs.trim_writtenList_eq b, hcontent.trim_writtenList_eq b]
  | displayMath loc hcontent =>
    simp only [Node.written, Node.writtenOption_eq, Enclosure.enclose, trim_chars,
      hcontent.trim_writtenList_eq b]

/-! ### Nodes that are written alike -/

/-- The nodes have the same source, with every line break, and want the same spaces on both
sides, next to every sibling. -/
structure WrittenAlike (n m : Node) : Prop where
  written_eq : ∀ b : List Char, n.written b = m.written b
  space_left : ∀ x : Node, x.needsSpace n = x.needsSpace m
  space_right : ∀ x : Node, n.needsSpace x = m.needsSpace x

theorem WrittenAlike.writtenList_eq {n m : Node} (h : WrittenAlike n m) (b : List Char)
    (front back : List Node) :
    Node.writtenList b (front ++ n :: back) = Node.writtenList b (front ++ m :: back) := by
  rw [Node.writtenList_append_cons, Node.writtenList_append_cons, h.written_eq,
    Node.writtenBefore_congr h.space_left, Node.writtenBehind_congr h.space_right]

/-- A padded node has the spaces of the node, which depend on its kind only. -/
theorem Padded.writtenAlike {n m : Node} (h : Padded n m) : WrittenAlike n m where
  written_eq := h.written_eq
  space_left x := by cases h <;> cases x <;> rfl
  space_right x := by cases h <;> cases x <;> rfl

/-- **A shell is written alike around lists that are written alike**, when none of them or both
are empty: a command without arguments has a space in front of a parameter. -/
theorem writtenAlike_fill (f : Shell) {ns ms : Option (List Node)}
    (h : ∀ b : List Char, Node.writtenList b (ns.getD []) = Node.writtenList b (ms.getD []))
    (hempty : (ns.getD []).isEmpty = (ms.getD []).isEmpty) :
    WrittenAlike (f.fill ns) (f.fill ms) where
  written_eq b := by rw [written_fill, written_fill, h]
  space_left := f.needsSpace_fill_left ns ms
  space_right := f.needsSpace_fill_right hempty

/-! ### A node at any depth -/

/-- A run of the one node, and a run of the other. -/
inductive Replaces (n m : Node) : List Node → List Node → Prop
  | single : Replaces n m [n] [m]

/-- A forest in which a node, at any depth, is replaced by one that is written alike is written
alike. -/
theorem Somewhere.writtenList_eq {n m : Node} (h : WrittenAlike n m) {ns ms : List Node}
    (hreplaced : Somewhere (Replaces n m) ns ms) :
    (∀ b : List Char, Node.writtenList b ns = Node.writtenList b ms) ∧
      ns.isEmpty = ms.isEmpty := by
  -- that the list is not empty is part of the induction, since a command shows it
  have hnonempty : ∀ (front back : List Node) (x y : Node),
      (front ++ x :: back).isEmpty = (front ++ y :: back).isEmpty := by
    intro front back x y
    cases front <;> rfl
  induction hreplaced with
  | here front back hrun =>
    obtain ⟨⟩ := hrun
    simp only [List.append_assoc, List.singleton_append]
    exact ⟨fun b => h.writtenList_eq b front back, hnonempty front back n m⟩
  | inside front back f hinner ih =>
    exact ⟨fun b => (writtenAlike_fill f ih.1 ih.2).writtenList_eq b front back,
      hnonempty front back _ _⟩

/-- **Blanks at the edges of a trimmed body are not seen.**  A node padded with texts of blanks
has the source of the node, and so has a forest in which the node is padded, at any depth. -/
theorem source_eq_of_padded {n m : Node} (h : Padded n m) (b : String) :
    n.source b = m.source b ∧
      ∀ ns ms, Somewhere (Replaces n m) ns ms → sourceAll b ns = sourceAll b ms := by
  constructor
  · rw [Node.source, Node.source, h.written_eq]
  · intro ns ms hreplaced
    rw [sourceAll, sourceAll, (hreplaced.writtenList_eq h.writtenAlike).1]

namespace Edges

/-- An environment without arguments.  Its content has a blank of its own at its start. -/
def narrow : Node :=
  .environment .plain "proof" none (some [.text " so" none, .mathChar "x" none]) none

/-- The environment with a line break for its arguments, and with an ideographic space and an
empty text behind the last symbol of its content. -/
def wide : Node :=
  .environment .plain "proof" (some [.text "\n" none])
    (some [.text " so" none, .mathChar "x" none, .text "\u3000" none, .text "" none]) none

/-- A node as the argument of a command, with a parameter behind the command. -/
def beforeParameter (n : Node) : List Node := [.command "emph" (some [n]) none, .parameter "1" none]

/-- The two environments have one source, and so have the forests around them. -/
theorem source_wide :
    Padded narrow wide ∧ narrow.source "\n" = wide.source "\n" ∧
      sourceAll "\n" (beforeParameter narrow) = sourceAll "\n" (beforeParameter wide) := by
  have hbreak : BlankTexts [.text "\n" none] :=
    .cons (List.all_eq_true.mp (by decide +kernel)) none .nil
  have hspace : BlankTexts [.text "\u3000" none, .text "" none] :=
    .cons (List.all_eq_true.mp (by decide +kernel)) none
      (.cons (List.all_eq_true.mp (by decide +kernel)) none .nil)
  have hargs : Padding none (some [.text "\n" none]) := ⟨_, [], hbreak, .nil, rfl⟩
  have hcontent : Padding (some [.text " so" none, .mathChar "x" none])
      (some [.text " so" none, .mathChar "x" none, .text "\u3000" none, .text "" none]) :=
    ⟨[], _, .nil, hspace, rfl⟩
  have hpadded : Padded narrow wide := .environment .plain "proof" none hargs hcontent
  obtain ⟨hnode, hforest⟩ := source_eq_of_padded hpadded "\n"
  have hreplaced : Somewhere (Replaces narrow wide) [narrow] [wide] :=
    .here [] [] Replaces.single
  exact ⟨hpadded, hnode, hforest _ _
    (.inside [] [.parameter "1" none] (.command "emph" none) hreplaced)⟩

end Edges

end TexTree

/-
TexTree/Proofs/Tree/PlainText.lean

The text of a forest without its markup has the contents of all text nodes, and enclosing
nodes does not change it:

    plainText (a {b c} d)  =  plainText (a b c d)

where any run of siblings may be enclosed, at any depth, and in any enclosure
(`plainText_drops_markup`).

Design.  What is joined is the list `words`, and everything is said of it.  It is made of the
lists of the siblings (`words_append`), and a node brings its own content and the words of its
children (`words_cons`), whatever stands above it (`map_node_walk`).  So a list stands with its
words between those of what is around it (`exists_words_fill`), and runs with the same words
can stand for each other at any depth (`Somewhere.words_eq`).
-/
import TexTree.PlainText
import TexTree.Proofs.Source.Spacing
import TexTree.Proofs.Tree.Shells

namespace TexTree

/-! ### Text nodes -/

theorem Node.text?_eq_some_iff {n : Node} {content : String} :
    n.text? = some content ↔ ∃ loc, n = .text content loc := by
  cases n <;> simp [text?]

/-- The nodes of the kind of texts are those that have a text. -/
theorem Predicate.is_text_eq (n : Node) : Predicate.is (some .text) none n = n.text?.isSome := by
  cases n with
  | environment flavour => cases flavour <;> rfl
  | enclosed e => cases e <;> rfl
  | mark m => cases m <;> rfl
  | _ => rfl

/-- The text nodes of a list of nodes, and their contents. -/
theorem texts_filter (ns : List Node) :
    Node.Texts (ns.filter (Predicate.is (some .text) none)) (ns.filterMap Node.text?) := by
  induction ns with
  | nil => exact .nil
  | cons n ns ih =>
    rcases h : n.text? with - | content
    · rw [List.filter_cons_of_neg (by simp [Predicate.is_text_eq, h]), List.filterMap_cons_none h]
      exact ih
    · rw [List.filter_cons_of_pos (by simp [Predicate.is_text_eq, h]), List.filterMap_cons_some h]
      obtain ⟨loc, rfl⟩ := Node.text?_eq_some_iff.mp h
      exact .cons content loc ih

/-- A walk meets the same nodes, whatever stands above the forest. -/
theorem map_node_walk (above above' ns : List Node) :
    (walk above ns).map Found.node = (walk above' ns).map Found.node := by
  fun_induction walk above ns generalizing above' with
  | case1 above => rw [walk_nil]
  | case2 above n ns ihc ihs =>
    rw [walk_cons, List.map_cons, List.map_cons, List.map_append, List.map_append,
      ihc (n :: above'), ihs above']

/-! ### Words -/

theorem words_eq_filterMap (above ns : List Node) :
    words ns = ((walk above ns).map Found.node).filterMap Node.text? := by
  rw [map_node_walk above [], List.filterMap_map, words]
  rfl

@[simp] theorem words_nil : words [] = [] := by
  rw [words, walk_nil, List.filterMap_nil]

@[simp] theorem words_append (ns ms : List Node) : words (ns ++ ms) = words ns ++ words ms := by
  rw [words, walk_append, List.filterMap_append, words, words]

/-- A node brings its own content, if it is a text, and the words of its children. -/
@[simp] theorem words_cons (n : Node) (ns : List Node) :
    words (n :: ns) = n.text?.toList ++ words n.children ++ words ns := by
  rw [words_eq_filterMap [n] n.children, words, walk_cons, List.filterMap_cons,
    List.filterMap_append, List.filterMap_map, words]
  cases n.text? <;> rfl

/-- **The words of a node are those of any of its lists, between others.**  The others are the
words of the second list of an environment. -/
theorem exists_words_fill (f : Shell) :
    ∃ front back, ∀ ns, words [f.fill ns] = front ++ words (ns.getD []) ++ back := by
  cases f with
  | environmentArgs flavour name content loc =>
    exact ⟨words (content.getD []), [], fun ns => by simp [Shell.fill, Node.text?, Node.children]⟩
  | environmentContent flavour name args loc =>
    exact ⟨[], words (args.getD []), fun ns => by simp [Shell.fill, Node.text?, Node.children]⟩
  | textCommand | listing =>
    exact ⟨[], [], fun ns => by
      simp [Shell.fill, Node.text?, Node.children, Argument.toNode]⟩
  | _ => exact ⟨[], [], fun ns => by simp [Shell.fill, Node.text?, Node.children]⟩

/-- Runs with the same words can stand for each other, at any depth. -/
theorem Somewhere.words_eq {R : List Node → List Node → Prop}
    (hrun : ∀ run run', R run run' → words run = words run') {ns ms : List Node}
    (h : Somewhere R ns ms) : words ns = words ms := by
  induction h with
  | here front back h =>
    simp only [words_append, hrun _ _ h]
  | inside front back f h ih =>
    obtain ⟨before, behind, hfill⟩ := exists_words_fill f
    have hcut (n : Node) :
        words (front ++ n :: back) = words front ++ (words [n] ++ words back) := by
      rw [← words_append, ← words_append, List.singleton_append]
    rw [hcut, hcut, hfill, hfill, ih]

/-! ### Enclosed runs -/

/-- A run of siblings, and the run as the content of one node that encloses it. -/
inductive Encloses : List Node → List Node → Prop
  | enclosed (e : Enclosure) (loc : Option Location) {run : List Node}
      {content : Option (List Node)} (h : content.getD [] = run) :
      Encloses run [.enclosed e content loc]
  | delimited (left right : String) (loc : Option Location) {run : List Node}
      {content : Option (List Node)} (h : content.getD [] = run) :
      Encloses run [.delimited left right content loc]

/-- An enclosed run has the words of the run. -/
theorem Encloses.words_eq {run enclosed : List Node} (h : Encloses run enclosed) :
    words run = words enclosed := by
  cases h with
  | enclosed e loc h => simp [Node.text?, Node.children, h]
  | delimited left right loc h => simp [Node.text?, Node.children, h]

/-- **Markup is dropped and nothing else.**  The text of a forest is made of the contents of the
text nodes that a search lists, in their order and with one space between them; and it stays
the same where a run of siblings is enclosed, in the forest itself or in a list at any depth. -/
theorem plainText_drops_markup (ns : List Node) :
    (∃ contents, Node.Texts ((findAll (.is (some .text) none) ns).map Found.node) contents ∧
      plainText ns = " ".intercalate contents) ∧
    ∀ ms, Somewhere Encloses ns ms → plainText ms = plainText ns := by
  constructor
  · refine ⟨words ns, ?_, rfl⟩
    have hnodes : (findAll (.is (some .text) none) ns).map Found.node =
        ((walk [] ns).map Found.node).filter (Predicate.is (some .text) none) := by
      rw [findAll, List.filter_map]
      rfl
    rw [hnodes, words_eq_filterMap [] ns]
    exact texts_filter _
  · intro ms h
    rw [plainText, plainText, h.words_eq fun _ _ => Encloses.words_eq]

namespace Nested

/-- An environment with content, and with a text command in its arguments around some nodes. -/
def environmentAround (inside : List Node) : List Node :=
  [.environment .plain "proof"
    (some [.text "of" none, .textCommand (some ⟨some inside, none⟩) none])
    (some [.text "so" none]) none]

/-- The nodes. -/
def run : List Node := [.mathChar "x" none, .text "it" none]

/-- A formula around the nodes changes nothing.  The content of the environment comes before
its arguments. -/
theorem plainText_environmentAround :
    Somewhere Encloses (environmentAround run)
      (environmentAround [.enclosed .inlineMath (some run) none]) ∧
    plainText (environmentAround [.enclosed .inlineMath (some run) none]) =
      plainText (environmentAround run) ∧
    words (environmentAround run) = ["so", "of", "it"] := by
  have hformula : Encloses run [.enclosed .inlineMath (some run) none] :=
    .enclosed .inlineMath none rfl
  have hrun : Somewhere Encloses run [.enclosed .inlineMath (some run) none] :=
    .here [] [] hformula
  have hargs : Somewhere Encloses
      [.text "of" none, .textCommand (some ⟨some run, none⟩) none]
      [.text "of" none,
        .textCommand (some ⟨some [.enclosed .inlineMath (some run) none], none⟩) none] :=
    .inside [.text "of" none] [] (.textCommand none none) hrun
  have henclosed : Somewhere Encloses (environmentAround run)
      (environmentAround [.enclosed .inlineMath (some run) none]) :=
    .inside [] [] (.environmentArgs .plain "proof" (some [.text "so" none]) none) hargs
  obtain ⟨-, hsame⟩ := plainText_drops_markup (environmentAround run)
  refine ⟨henclosed, hsame _ henclosed, ?_⟩
  simp [environmentAround, run, Node.text?, Node.children, Argument.toNode]

end Nested

end TexTree

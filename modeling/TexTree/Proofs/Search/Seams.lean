/-
TexTree/Proofs/Search/Seams.lean

Runs of siblings and the sequences in which a node stores them.  The children of a node are
its sequences one after the other,

    n.children  =  content ++ arguments ++ single argument

(`children_eq_flatten_sequences`), and a run is looked for among the children.  Only an
environment has two sequences that can both hold nodes, so a run stands in one sequence, or
it goes over the seam of an environment:

    content of the environment         front ++ last
    arguments of the environment       first ++ behind
    the run                            last ++ first

Main result: there are no other runs (`runs_stand_in_sequence_or_across_seam`).  That the
second sort does occur is seen at a table (`Seam.not_inOneSequence`).

Design.  Nodes are values, and equal nodes may stand on both sides of a seam; so that a run
stands in a sequence is said with the number of its first node among the children
(`InSequence`, `AcrossSeam`), and not only with the nodes of the run.
-/
import TexTree.Proofs.Search.Windows

namespace TexTree

/-! ### The sequences of a node -/

namespace Node

/-- The sequences of nodes that a node stores: its content, its arguments, and its single
argument, which is a sequence of at most one node. -/
def sequences (n : Node) : List (List Node) :=
  [n.draft.content.getD [], n.draft.args.getD [],
    (n.draft.argument.map (Argument.toNode (argumentEnclosure n.kind))).toList]

/-- The children of a node are its sequences one after the other. -/
theorem children_eq_flatten_sequences (n : Node) : n.children = n.sequences.flatten := by
  rw [children_eq_stored, stored, sequences]
  simp

/-- The nodes stand in one of the sequences of `n`, and the first of them is the child with
the number `i`. -/
def InSequence (n : Node) (i : Nat) (nodes : List Node) : Prop :=
  ∃ before after front behind, n.sequences = before ++ (front ++ nodes ++ behind) :: after ∧
    i = before.flatten.length + front.length

/-- The nodes are the last ones of the content and the first ones of the arguments of an
environment, and the first of them is the child with the number `i`. -/
inductive AcrossSeam : Node → Nat → List Node → Prop
  | environment (flavour : Flavour) (name : String) (loc : Option Location)
      (front behind : List Node) {last first : List Node} (hlast : last ≠ [])
      (hfirst : first ≠ []) :
      AcrossSeam (.environment flavour name (some (first ++ behind)) (some (front ++ last)) loc)
        front.length (last ++ first)

/-- A node other than an environment has its children in one sequence. -/
theorem exists_sequences_eq {n : Node}
    (h : ∀ flavour name args content loc, n ≠ .environment flavour name args content loc) :
    ∃ before after, n.sequences = before ++ n.children :: after ∧ before.flatten = [] := by
  cases n with
  | environment flavour name args content loc => exact absurd rfl (h _ _ _ _ _)
  | text | mathChar | letCommand | mark | parameter | verb | verbatim =>
    exact ⟨[], [[], []], rfl, rfl⟩
  | enclosed | delimited => exact ⟨[], [[], []], rfl, rfl⟩
  | command | defCommand | minted => exact ⟨[[]], [[]], rfl, rfl⟩
  | textCommand | listing => exact ⟨[[], []], [], rfl, rfl⟩

section Environment

variable {flavour : Flavour} {name : String} {args content : Option (List Node)}
  {loc : Option Location} {front nodes behind : List Node}

theorem inSequence_of_content (h : content.getD [] = front ++ nodes ++ behind) :
    InSequence (.environment flavour name args content loc) front.length nodes :=
  ⟨[], [args.getD [], []], front, behind, by rw [← h]; rfl, by simp⟩

theorem inSequence_of_args (h : args.getD [] = front ++ nodes ++ behind) :
    InSequence (.environment flavour name args content loc)
      ((content.getD []).length + front.length) nodes :=
  ⟨[content.getD []], [[]], front, behind, by rw [← h]; rfl, by simp⟩

/-- A run of children of an environment stands in its content, in its arguments, or goes
over the seam between the two. -/
theorem inSequence_or_acrossSeam_environment
    (h : content.getD [] ++ args.getD [] = front ++ nodes ++ behind) :
    InSequence (.environment flavour name args content loc) front.length nodes ∨
      AcrossSeam (.environment flavour name args content loc) front.length nodes := by
  rw [List.append_assoc] at h
  rcases List.append_eq_append_iff.mp h with ⟨more, hfront, hargs⟩ | ⟨tail, hcontent, hnodes⟩
  · -- the run begins among the arguments
    left
    rw [hfront, List.length_append]
    exact inSequence_of_args (by rw [hargs, List.append_assoc])
  rcases List.append_eq_append_iff.mp hnodes with ⟨more, rfl, -⟩ | ⟨first, rfl, hargs⟩
  · -- it ends in the content
    left
    exact inSequence_of_content (by rw [hcontent, List.append_assoc])
  · -- it begins in `tail`, at the end of the content, and goes on as `first`
    by_cases htail : tail = []
    · left
      subst htail
      have hlength : front.length = (content.getD []).length + ([] : List Node).length := by
        rw [hcontent, List.append_nil, List.length_nil, Nat.add_zero]
      rw [hlength]
      exact inSequence_of_args hargs
    by_cases hfirst : first = []
    · left
      subst hfirst
      have hwhole : content.getD [] = front ++ (tail ++ []) ++ [] := by
        rw [List.append_nil, List.append_nil, hcontent]
      exact inSequence_of_content hwhole
    · right
      cases content with
      | none => exact absurd (List.append_eq_nil_iff.mp hcontent.symm).2 htail
      | some content =>
        cases args with
        | none => exact absurd (List.append_eq_nil_iff.mp hargs.symm).1 hfirst
        | some args =>
          obtain rfl : content = front ++ tail := hcontent
          obtain rfl : args = first ++ behind := hargs
          exact .environment flavour name loc front behind htail hfirst

end Environment

/-- **A run of children stands in one of the sequences or goes over a seam.** -/
theorem inSequence_or_acrossSeam {n : Node} {front nodes behind : List Node}
    (h : n.children = front ++ nodes ++ behind) :
    InSequence n front.length nodes ∨ AcrossSeam n front.length nodes := by
  by_cases henv : ∃ flavour name args content loc, n = .environment flavour name args content loc
  · obtain ⟨flavour, name, args, content, loc, rfl⟩ := henv
    exact inSequence_or_acrossSeam_environment h
  · left
    obtain ⟨before, after, hsequences, hbefore⟩ := exists_sequences_eq
      fun flavour name args content loc hn => henv ⟨flavour, name, args, content, loc, hn⟩
    refine ⟨before, after, front, behind, by rw [hsequences, h], ?_⟩
    rw [hbefore, List.length_nil, Nat.zero_add]

end Node

/-! ### Runs in a forest -/

/-- Where a run stands that begins at an address: among the nodes of the forest, in one of the
sequences of the node that owns it, or across the seam of that node. -/
inductive RunStands (ns : List Node) : List Nat → Window → Prop
  | top {front nodes behind : List Node} (h : ns = front ++ nodes ++ behind) :
      RunStands ns [front.length] ⟨nodes, []⟩
  | inSequence {owner : List Nat} {f : Found} {i : Nat} {nodes : List Node}
      (howner : (owner, f) ∈ (addresses ns).zip (findAll (.is none none) ns))
      (h : f.node.InSequence i nodes) :
      RunStands ns (owner ++ [i]) ⟨nodes, f.node :: f.ancestors⟩
  | acrossSeam {owner : List Nat} {f : Found} {i : Nat} {nodes : List Node}
      (howner : (owner, f) ∈ (addresses ns).zip (findAll (.is none none) ns))
      (h : f.node.AcrossSeam i nodes) :
      RunStands ns (owner ++ [i]) ⟨nodes, f.node :: f.ancestors⟩

/-- A run has as many nodes as there are conditions. -/
theorem length_nodes_of_mem_windows {p : Predicate} {ps : List Predicate} {ns : List Node}
    {w : Window} (h : w ∈ windows (p :: ps) ns) : w.nodes.length = (p :: ps).length := by
  rw [windows_cons] at h
  obtain ⟨x, hx, rfl⟩ := List.mem_map.mp h
  exact length_take_of_startsWith (List.mem_filter.mp hx).2

/-- A run that is cut out of a list in full has something of the list on its two sides. -/
theorem eq_append_of_length_take {L nodes : List Node} {i k : Nat}
    (h : nodes = (L.drop i).take (k + 1)) (hlength : nodes.length = k + 1) :
    ∃ front behind, L = front ++ nodes ++ behind ∧ i = front.length := by
  have hi : i ≤ L.length := by
    rw [h, List.length_take, List.length_drop] at hlength
    omega
  refine ⟨L.take i, (L.drop i).drop (k + 1), ?_, (List.length_take_of_le hi).symm⟩
  rw [h, List.append_assoc, List.take_append_drop, List.take_append_drop]

/-- **A run stands in one sequence or across the seam of an environment.**  The runs that a
search reports, each with the address of its first node, stand among the nodes of the forest,
in one of the sequences of the node that owns them, or else they join the last nodes of the
content of an environment with the first of its arguments. -/
theorem runs_stand_in_sequence_or_across_seam (p : Predicate) (ps : List Predicate)
    (ns : List Node) :
    ∃ starts, ListsRuns (p :: ps) ns starts (windows (p :: ps) ns) ∧
      List.Forall₂ (RunStands ns) starts (windows (p :: ps) ns) := by
  obtain ⟨starts, hruns⟩ := listsRuns_windows p ps ns
  refine ⟨starts, hruns, ?_⟩
  have hlength : ∀ w ∈ windows (p :: ps) ns, w.nodes.length = ps.length + 1 :=
    fun w hw => length_nodes_of_mem_windows hw
  have hreported := (List.forall₂_and_left _ _ |>.mpr ⟨hlength, hruns.reported.flip⟩).flip
  refine hreported.imp fun a w hw => ?_
  obtain ⟨hnodes, owner, i, L, rfl, hL, hcut⟩ := hw
  obtain ⟨nodes, above⟩ := w
  obtain ⟨front, behind, hsplit, rfl⟩ := eq_append_of_length_take hcut hnodes
  cases hL with
  | top => exact .top hsplit
  | below howner =>
    rcases Node.inSequence_or_acrossSeam hsplit with hin | hacross
    · exact .inSequence howner hin
    · exact .acrossSeam howner hacross

/-! ### A seam -/

/-- The run is made of neighbours in the forest, or in one of the sequences of the node that
owns it. -/
def InOneSequence (ns : List Node) (w : Window) : Prop :=
  match w.ancestors with
  | [] => w.nodes <:+: ns
  | owner :: _ => ∃ sequence ∈ owner.sequences, w.nodes <:+: sequence

namespace Seam

/-- The text in the table. -/
def cell : Node := .text "a" none

/-- The preamble of the table. -/
def preamble : Node := .enclosed .group (some [.text "cc" none]) none

/-- A table with a preamble and one cell. -/
def table : Node := .environment .plain "tabular" (some [preamble]) (some [cell]) none

/-- Texts with a group behind them. -/
def textThenGroup : List Predicate := [.is (some .text) none, .is (some .group) none]

/-- The search for a text with a group behind it reports the cell of the table with its
preamble. -/
theorem windows_table : windows textThenGroup [table] = [⟨[cell, preamble], [table]⟩] := by
  simp [windows, textThenGroup, windowsBelow_cons, windowAt, startsWith, table, cell, preamble,
    Node.children, Predicate.is, Node.kind, Flavour.kind, Enclosure.kind]

/-- **A run can go over a seam**: the cell and the preamble of a table are in no sequence
together. -/
theorem not_inOneSequence :
    ¬∀ w ∈ windows textThenGroup [table], InOneSequence [table] w := by
  intro h
  rw [windows_table] at h
  obtain ⟨sequence, hsequence, hrun⟩ := h _ (List.mem_singleton_self _)
  have hshort : ∀ sequence ∈ table.sequences, sequence.length ≤ 1 := by decide
  exact absurd (hrun.length_le.trans (hshort sequence hsequence)) (by decide)

end Seam

end TexTree

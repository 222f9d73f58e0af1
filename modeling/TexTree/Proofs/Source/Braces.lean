/-
TexTree/Proofs/Source/Braces.lean

Braces match in a source.  Where they match in the line break and in every text that a
node of the forest holds, they match in what is written of it; so each group of the
forest is read back whole from its source, with anything behind it:

    braced (source of the group ++ rest)  =  source of its content, and rest

(`braced_source_group`).

Design.  Balanced texts are closed under everything that a node is written with: texts
side by side, groups, spaces, and trimming, which takes no brace away (`Balanced.trim`).
So the statement goes from the children of a node to the node
(`Node.balanced_written_of_children`), for all balanced line breaks at once, since the
arguments of a program listing are written with another one than the node.  Over the
forest it follows the walk, which meets every node whose texts count.
-/
import TexTree.Proofs.Codec.Fields
import TexTree.Proofs.Column.Braced
import TexTree.Proofs.Search.Navigation
import TexTree.Proofs.Source.Spacing
import TexTree.Proofs.Text.Trim

namespace TexTree

/-! ### Pieces of a source -/

/-- An opening or a closing brace. -/
def isBrace (c : Char) : Bool := c == '\x7b' || c == '\x7d'

theorem isBrace_of_isBlank {c : Char} (h : isBlank c) : isBrace c = false := by
  rw [isBrace, Bool.or_eq_false_iff, beq_eq_false_iff_ne, beq_eq_false_iff_ne]
  constructor
  · rintro rfl
    exact absurd h (by decide)
  · rintro rfl
    exact absurd h (by decide)

/-- No brace is blank, so trimming takes none away. -/
theorem Balanced.trim {s : List Char} (h : Balanced s) : Balanced (trim s) := by
  have hbraces (t : List Char) : Balanced (t.filter isBrace) ↔ Balanced t :=
    balanced_filter_iff rfl rfl
  rwa [← hbraces, trim_eq_trimBy, filter_trimBy_eq (fun _ => isBrace_of_isBlank), hbraces]

theorem balanced_spaces (k : Nat) : Balanced (List.replicate k ' ') :=
  .of_forall_ne fun c hc => by
    rw [List.eq_of_mem_replicate hc]
    decide

theorem balanced_controlWord {name : List Char} (h : Balanced name) :
    Balanced (controlWord name) := balanced_cons (by decide) h

/-- A control word with a name in braces behind it. -/
theorem balanced_controlWord_grouped {word name : List Char} (hword : Balanced word)
    (hname : Balanced name) : Balanced (controlWord word ++ ['\x7b'] ++ name ++ ['\x7d']) := by
  have hgroup : ['\x7b'] ++ name ++ ['\x7d'] = grouped name := rfl
  rw [List.append_assoc, List.append_assoc, ← List.append_assoc ['\x7b'], hgroup]
  exact (balanced_controlWord hword).append hname.grouped

theorem balanced_beginning {name : List Char} (h : Balanced name) :
    Balanced (beginning name) := balanced_controlWord_grouped (by decide +kernel) h

theorem balanced_ending {name : List Char} (h : Balanced name) :
    Balanced (ending name) := balanced_controlWord_grouped (by decide +kernel) h

section Pieces

variable {b : List Char} (hb : Balanced b)

include hb

/-- The one enclosure with braces has both of them. -/
theorem Enclosure.balanced_enclose (e : Enclosure) {body : List Char} (h : Balanced body) :
    Balanced (e.enclose b body) := by
  cases e with
  | group => exact h.grouped
  | displayMath =>
    refine Balanced.flatten ?_
    simp only [List.forall_mem_cons]
    exact ⟨by decide, hb, h.trim, hb, by decide, hb, by simp⟩
  | «optional» | superscript | subscript | inlineMath =>
    exact (Balanced.append (by decide) h).append (by decide)

theorem Mark.balanced_source (m : Mark) : Balanced (m.source b) := by
  cases m with
  | parBreak => exact Balanced.append (balanced_controlWord (by decide +kernel)) hb
  | alignmentTab | tie => exact balanced_cons (by decide) .nil
  | ignored => exact .nil

theorem balanced_environmentSource {name args content : List Char} (hname : Balanced name)
    (hargs : Balanced args) (hcontent : Balanced content) :
    Balanced (environmentSource b name args content) := by
  refine Balanced.flatten ?_
  simp only [List.forall_mem_cons]
  exact ⟨balanced_beginning hname, hargs.trim, hb, hcontent.trim, hb, balanced_ending hname, hb,
    by simp⟩

end Pieces

/-! ### Nodes -/

/-- The texts that a node holds in fields of its own. -/
def Draft.texts (d : Draft) : List String :=
  [d.name, d.token, d.target, d.left, d.right, d.number, d.escape, d.text]

namespace Node

/-- Braces match in siblings when they match in each of them. -/
theorem balanced_writtenList {b : List Char} {ns : List Node}
    (h : ∀ n ∈ ns, Balanced (n.written b)) : Balanced (writtenList b ns) := by
  induction ns with
  | nil => exact .nil
  | cons n ns ih =>
    obtain ⟨hn, hns⟩ := List.forall_mem_cons.mp h
    obtain ⟨k, hk⟩ := exists_writtenList_append_eq b [n] ns
    rw [List.singleton_append] at hk
    rw [hk]
    exact (hn.append (balanced_spaces k)).append (ih hns)

/-- **What holds of the children of a node holds of the node**, when braces match in its own
texts. -/
theorem balanced_written_of_children {n : Node} (htexts : ∀ s ∈ n.draft.texts, Balanced s.toList)
    (ih : ∀ m ∈ n.children, ∀ b, Balanced b → Balanced (m.written b)) {b : List Char}
    (hb : Balanced b) : Balanced (n.written b) := by
  have hlist : ∀ ns : Option (List Node), (∀ m ∈ ns.getD [], m ∈ n.children) →
      ∀ b, Balanced b → Balanced (writtenOption b ns) := by
    intro ns hsub b hb
    rw [writtenOption_eq]
    exact balanced_writtenList fun m hm => ih m (hsub m hm) b hb
  simp only [Draft.texts, List.forall_mem_cons] at htexts
  obtain ⟨hname, htoken, htarget, hleft, hright, hnumber, hescape, htext, -⟩ := htexts
  cases n with
  | text => exact htext
  | mathChar => exact htext
  | command name args =>
    exact (balanced_controlWord hname).append (hlist args (fun _ => id) b hb)
  | textCommand arg =>
    have hword : Balanced (controlWord "text".toList) := balanced_controlWord (by decide +kernel)
    cases arg with
    | none => exact hword.append .nil
    | some a =>
      rw [written, writtenArgument_some]
      exact hword.append (ih _ List.mem_cons_self b hb)
  | letCommand =>
    have hword : Balanced (controlWord "let".toList) := balanced_controlWord (by decide +kernel)
    exact (hword.append htoken).append htarget
  | defCommand name token args =>
    have hword : Balanced (controlWord "def".toList) := balanced_controlWord (by decide +kernel)
    exact (hword.append htoken).append (hlist args (fun _ => id) b hb)
  | environment flavour name args content =>
    exact balanced_environmentSource hb hname
      (hlist args (fun _ => List.mem_append_right _) b hb)
      (hlist content (fun _ => List.mem_append_left _) b hb)
  | enclosed e content => exact e.balanced_enclose hb (hlist content (fun _ => id) b hb)
  | delimited left right content =>
    have hopen : Balanced (controlWord "left".toList) := balanced_controlWord (by decide +kernel)
    have hclose : Balanced (controlWord "right".toList) := balanced_controlWord (by decide +kernel)
    exact (((hopen.append hleft).append (hlist content (fun _ => id) b hb)).append hclose).append
      hright
  | mark m => exact m.balanced_source hb
  | parameter => exact balanced_cons (by decide) hnumber
  | verb =>
    have hword : Balanced (controlWord "verb".toList) := balanced_controlWord (by decide +kernel)
    exact ((hword.append hescape).append htext).append hescape
  | verbatim =>
    have hbegin : Balanced (beginning "verbatim".toList) := balanced_beginning (by decide +kernel)
    have hend : Balanced (ending "verbatim".toList) := balanced_ending (by decide +kernel)
    exact ((hbegin.append htext).append hend).append hb
  | minted name args =>
    have hbegin : Balanced (beginning "minted".toList) := balanced_beginning (by decide +kernel)
    have hend : Balanced (ending "minted".toList) := balanced_ending (by decide +kernel)
    exact (((hbegin.append (hlist args (fun _ => id) [] .nil)).append htext).append hend).append hb
  | listing name arg =>
    have hbegin : Balanced (beginning "lstlisting".toList) := balanced_beginning (by decide +kernel)
    have hend : Balanced (ending "lstlisting".toList) := balanced_ending (by decide +kernel)
    have harg : Balanced (writtenArgument [] .optional arg) := by
      cases arg with
      | none => exact .nil
      | some a =>
        rw [writtenArgument_some]
        exact ih _ List.mem_cons_self [] .nil
    exact ((hbegin.append harg).append htext).append hend

/-- Braces match in every node of a forest, when they match in the texts of all nodes that a
walk meets. -/
theorem balanced_written_of_walk {above ns : List Node}
    (h : ∀ f ∈ walk above ns, ∀ s ∈ f.node.draft.texts, Balanced s.toList) :
    ∀ n ∈ ns, ∀ b, Balanced b → Balanced (n.written b) := by
  fun_induction walk above ns with
  | case1 => simp
  | case2 above n ns ihchildren ihrest =>
    rw [List.forall_mem_cons, List.forall_mem_append] at h
    obtain ⟨hn, hchildren, hrest⟩ := h
    exact List.forall_mem_cons.mpr
      ⟨fun b hb => balanced_written_of_children hn (ihchildren hchildren) hb, ihrest hrest⟩

end Node

/-! ### Groups -/

/-- **Groups are read back whole.**  Where braces match in the line break and in all texts of
the nodes of a forest, they match in its source; and from the source of any group in it, in
front of any rest, exactly the source of its content is read as a closed group, which ends where
the source of the group does: the rest is left. -/
theorem braced_source_group {b : String} (hb : Balanced b.toList) {ns : List Node}
    (h : ∀ f ∈ walk [] ns, ∀ s ∈ f.node.draft.texts, Balanced s.toList) :
    Balanced (sourceAll b ns).toList ∧
      ∀ f ∈ walk [] ns, ∀ content loc, f.node = .enclosed .group content loc →
        ∀ rest : List Char, braced ((f.node.source b).toList ++ rest) =
          ⟨(sourceAll b (content.getD [])).toList, rest, true⟩ := by
  have hforest : ∀ {above ms : List Node}, (∀ f ∈ walk above ms, ∀ s ∈ f.node.draft.texts,
      Balanced s.toList) → Balanced (sourceAll b ms).toList := by
    intro above ms hms
    rw [sourceAll, String.toList_ofList]
    exact Node.balanced_writtenList fun n hn => Node.balanced_written_of_walk hms n hn _ hb
  refine ⟨hforest h, fun f hf content loc hgroup rest => ?_⟩
  have hcontent : Balanced (sourceAll b (content.getD [])).toList := by
    have hbelow := walk_subset hf
    rw [hgroup] at hbelow
    exact hforest fun g hg => h g (hbelow hg)
  have hsource : (f.node.source b).toList = grouped (sourceAll b (content.getD [])).toList := by
    rw [hgroup, Node.source, sourceAll, String.toList_ofList, String.toList_ofList, Node.written,
      Node.writtenOption_eq]
    rfl
  rw [hsource, braced_grouped hcontent]

/-- A group with braces in its text. -/
def widthGroup : Node := .enclosed .group (some [.text "p\x7b3cm\x7d" none, .mathChar "x" none]) none

/-- The group as the argument of an environment with braces in its content. -/
def widthTable : Node :=
  .environment .plain "t" (some [widthGroup]) (some [.verb "verb" "|" "\x7b\x7d" none]) none

/-- The group is read to its own end, and not to a brace of its text or of the line break behind
it. -/
theorem braced_widthGroup :
    Balanced "\x7b\x7d".toList ∧
    (∀ f ∈ walk [] [widthTable], ∀ s ∈ f.node.draft.texts, Balanced s.toList) ∧
    Balanced (sourceAll "\x7b\x7d" [widthTable]).toList ∧
    braced ((widthGroup.source "\x7b\x7d").toList ++ ['\x7d', '\x7b']) =
      ⟨"p\x7b3cm\x7d x".toList, ['\x7d', '\x7b'], true⟩ := by
  have hb : Balanced "\x7b\x7d".toList := by decide +kernel
  have hwalk : walk [] [widthTable] = [⟨widthTable, []⟩,
      ⟨.verb "verb" "|" "\x7b\x7d" none, [widthTable]⟩, ⟨widthGroup, [widthTable]⟩,
      ⟨.text "p\x7b3cm\x7d" none, [widthGroup, widthTable]⟩,
      ⟨.mathChar "x" none, [widthGroup, widthTable]⟩] := by
    simp [widthTable, widthGroup, Node.children]
  have htexts : ∀ f ∈ walk [] [widthTable], ∀ s ∈ f.node.draft.texts, Balanced s.toList := by
    rw [hwalk]
    decide +kernel
  obtain ⟨hforest, hgroups⟩ := braced_source_group hb htexts
  have hgroup : (⟨widthGroup, [widthTable]⟩ : Found) ∈ walk [] [widthTable] := by
    rw [hwalk]
    exact .tail _ (.tail _ (.head _))
  exact ⟨hb, htexts, hforest, (hgroups _ hgroup _ none rfl _).trans (by decide +kernel)⟩

end TexTree

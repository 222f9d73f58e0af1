/-
TexTree/Proofs/Search/Navigation.lean

Moving about never leaves the tree.  Whatever moves are made, the current node is none or
stands on a path of the tree, from one of its own nodes down through children.

    f.OnPath ns             the node is on a path of the forest ns
    f.OnPath ns  ↔  f ∈ walk [] ns

Design.  The invariant of a run is that the current node is one that a walk through the tree
visits, with the same nodes above it.  One move keeps it (`mem_walk_apply`): a lookup goes on
below the current node, where the walk goes on as well (`walk_subset`), and the parent of a
visited node has been visited (`mem_walk_iff`).
-/
import TexTree.Navigation
import TexTree.Proofs.Search.Chains

namespace TexTree

/-! ### Paths -/

namespace Found

theorem parent?_eq_none_iff {f : Found} : f.parent? = none ↔ f.ancestors = [] := by
  obtain ⟨n, above⟩ := f
  cases above <;> simp [parent?]

theorem parent?_eq_some_iff {f g : Found} :
    f.parent? = some g ↔ f.ancestors = g.node :: g.ancestors := by
  obtain ⟨n, above⟩ := f
  obtain ⟨m, higher⟩ := g
  cases above <;> simp [parent?]

theorem mem_below_iff {f g : Found} :
    f ∈ g.below ↔ f.parent? = some g ∧ f.node ∈ g.node.children := by
  rw [below, List.mem_map, parent?_eq_some_iff]
  constructor
  · rintro ⟨n, hn, rfl⟩
    exact ⟨rfl, hn⟩
  · rintro ⟨habove, hn⟩
    exact ⟨f.node, hn, by rw [← habove]⟩

/-- The node is one of the forest, or a child of its parent, which is on a path itself. -/
inductive OnPath (ns : List Node) : Found → Prop
  | top {f : Found} (hparent : f.parent? = none) (h : f.node ∈ ns) : OnPath ns f
  | child {f g : Found} (hparent : f.parent? = some g) (h : f.node ∈ g.node.children)
      (hg : OnPath ns g) : OnPath ns f

end Found

/-- A walk visits the nodes of the forest and what is directly below a visited node. -/
theorem mem_walk_iff {f : Found} {ns : List Node} :
    f ∈ walk [] ns ↔ (f.parent? = none ∧ f.node ∈ ns) ∨
      ∃ g ∈ walk [] ns, f.parent? = some g ∧ f.node ∈ g.node.children := by
  rw [(walk_perm [] ns).mem_iff, List.mem_append, List.mem_flatMap, List.mem_map,
    Found.parent?_eq_none_iff]
  refine or_congr ⟨?_, ?_⟩ (exists_congr fun g => and_congr_right fun _ => Found.mem_below_iff)
  · rintro ⟨n, hn, rfl⟩
    exact ⟨rfl, hn⟩
  · rintro ⟨habove, hn⟩
    exact ⟨f.node, hn, by rw [← habove]⟩

/-- **A walk visits exactly the nodes on the paths of a forest.** -/
theorem onPath_iff_mem_walk {f : Found} {ns : List Node} : f.OnPath ns ↔ f ∈ walk [] ns := by
  constructor
  · intro h
    induction h with
    | top hparent h => exact mem_walk_iff.mpr (.inl ⟨hparent, h⟩)
    | @child f g hparent h hg ih => exact mem_walk_iff.mpr (.inr ⟨g, ih, hparent, h⟩)
  · -- by induction on the nodes above, of which the parent has one less
    intro h
    obtain ⟨n, above⟩ := f
    induction above generalizing n with
    | nil =>
      rcases mem_walk_iff.mp h with ⟨hparent, hn⟩ | ⟨g, -, hparent, -⟩
      · exact .top hparent hn
      · cases hparent
    | cons m above ih =>
      rcases mem_walk_iff.mp h with ⟨hparent, -⟩ | ⟨g, hg, hparent, hn⟩
      · cases hparent
      · obtain ⟨rfl⟩ : some (Found.mk m above) = some g := hparent
        exact .child rfl hn (ih m hg)

/-- What a walk visits below a visited node it visits. -/
theorem walk_subset {f : Found} {above ns : List Node} (h : f ∈ walk above ns) :
    walk (f.node :: f.ancestors) f.node.children ⊆ walk above ns := by
  fun_induction walk above ns with
  | case1 above => cases h
  | case2 above n ns ihc ihs =>
    rcases List.mem_cons.mp h with rfl | h
    · exact fun g hg => List.mem_cons_of_mem _ (List.mem_append_left _ hg)
    · rcases List.mem_append.mp h with h | h
      · exact fun g hg => List.mem_cons_of_mem _ (List.mem_append_left _ (ihc h hg))
      · exact fun g hg => List.mem_cons_of_mem _ (List.mem_append_right _ (ihs h hg))

/-- A lookup ends where it started or at a node that a walk visits from there. -/
theorem lookupFrom_eq_or_mem (c : Cursor) (start : Option Found) (ns : List Node) :
    lookupFrom c start ns = start ∨
      ∃ f ∈ walk (Found.chain start) ns, lookupFrom c start ns = some f := by
  fun_induction lookupFrom c start ns with
  | case1 start => exact .inl rfl
  | case2 start n ns hin ih =>
    right
    rw [walk_cons]
    rcases ih with heq | ⟨f, hf, heq⟩
    · exact ⟨_, List.mem_cons_self .., heq⟩
    · exact ⟨f, List.mem_cons_of_mem _ (List.mem_append_left _ hf), heq⟩
  | case3 start n ns hout ih =>
    refine ih.imp_right fun ⟨f, hf, heq⟩ => ⟨f, ?_, heq⟩
    rw [walk_cons]
    exact List.mem_cons_of_mem _ (List.mem_append_right _ hf)

/-! ### Moves -/

namespace Move

/-- A move that picks a node picks it from the whole tree. -/
def picksFromTree : Move → Bool
  | .pick inside _ _ => !inside
  | .goto _ | .descend _ | .up => true

/-- **A move keeps the current node among the visited ones.** -/
theorem mem_walk_apply {tree : List Node} {current : Option Found} {m : Move}
    (hm : m.picksFromTree = true) (h : ∀ f ∈ current, f ∈ walk [] tree) :
    ∀ f ∈ m.apply tree current, f ∈ walk [] tree := by
  intro f hf
  cases m with
  | goto c =>
    rcases lookupFrom_eq_or_mem c none tree with heq | ⟨g, hg, heq⟩
    · cases heq.symm.trans hf
    · cases heq.symm.trans hf
      exact hg
  | descend c =>
    rcases lookupFrom_eq_or_mem c current (scope tree current true) with heq | ⟨g, hg, heq⟩
    · exact h f (heq.symm.trans hf)
    · cases heq.symm.trans hf
      cases current with
      | none => exact hg
      | some g => exact walk_subset (h g rfl) hg
  | up =>
    obtain ⟨g, hg, hparent⟩ := Option.bind_eq_some_iff.mp hf
    rcases mem_walk_iff.mp (h g hg) with ⟨hnone, -⟩ | ⟨f', hf', hsome, -⟩
    · cases hnone.symm.trans hparent
    · cases hsome.symm.trans hparent
      exact hf'
  | pick inside p index =>
    cases inside with
    | true => cases hm
    | false => exact List.mem_of_mem_filter (List.mem_of_getElem? hf)

theorem run_concat (tree : List Node) (moves : List Move) (m : Move) :
    run tree (moves ++ [m]) = m.apply tree (run tree moves) := by
  rw [run, List.foldl_append]
  rfl

/-- **After any moves the current node is a visited one.** -/
theorem mem_walk_run {tree : List Node} {moves : List Move}
    (hmoves : ∀ m ∈ moves, m.picksFromTree = true) : ∀ f ∈ run tree moves, f ∈ walk [] tree := by
  induction moves using List.reverseRecOn with
  | nil =>
    intro f hf
    cases hf
  | append_singleton moves m ih =>
    rw [run_concat]
    refine mem_walk_apply (hmoves m (by simp)) (ih fun m' hm' => hmoves m' ?_)
    exact List.mem_append_left _ hm'

/-- Going up `k` times leaves all but the `k` closest of the nodes above. -/
theorem run_replicate_up {tree : List Node} {moves : List Move} {f : Found}
    (h : run tree moves = some f) {k : Nat} (hk : k ≤ f.depth) :
    ∃ g, run tree (moves ++ List.replicate k .up) = some g ∧
      g.ancestors = f.ancestors.drop k := by
  induction k with
  | zero => exact ⟨f, by rw [List.replicate_zero, List.append_nil, h], rfl⟩
  | succ k ih =>
    obtain ⟨g, hg, habove⟩ := ih (Nat.le_of_succ_le hk)
    have hlt : k < f.ancestors.length := hk
    rw [List.drop_eq_getElem_cons hlt] at habove
    refine ⟨⟨f.ancestors[k], f.ancestors.drop (k + 1)⟩, ?_, rfl⟩
    rw [List.replicate_succ', ← List.append_assoc, run_concat, hg]
    exact Found.parent?_eq_some_iff.mpr habove

/-- **Moving about never leaves the tree.**  After any moves there is no current node, or it
is on a path of the tree, and a search through the tree reports it with the same nodes above
it.  Its depth is the number of moves up after which there is no parent. -/
theorem run_stays_in_tree (tree : List Node) {moves : List Move}
    (hmoves : ∀ m ∈ moves, m.picksFromTree = true) :
    ∀ f, run tree moves = some f →
      f.OnPath tree ∧ f ∈ findAll (.is none none) tree ∧
      ∀ k ≤ f.depth, ∃ g, run tree (moves ++ List.replicate k .up) = some g ∧
        (g.parent? = none ↔ k = f.depth) := by
  intro f hf
  have hvisited : f ∈ walk [] tree := mem_walk_run hmoves f hf
  refine ⟨onPath_iff_mem_walk.mpr hvisited, ?_, fun k hk => ?_⟩
  · rw [findAll_is_none_none]
    exact hvisited
  · obtain ⟨g, hg, habove⟩ := run_replicate_up hf hk
    refine ⟨g, hg, ?_⟩
    rw [Found.parent?_eq_none_iff, habove, List.drop_eq_nil_iff]
    exact ⟨fun h => Nat.le_antisymm hk h, fun h => h.ge⟩

/-- To the text in a group, up to the group and beyond it, back to the group, and down to its
text. -/
theorem run_to_text_in_group :
    let text := Node.text "a" (some ⟨{ offset := 2 }, { offset := 4 }⟩)
    let group := Node.enclosed .group (some [text]) (some ⟨{ offset := 0 }, { offset := 5 }⟩)
    let moves := [.goto (.atOffset 3), .up, .up, .pick false (fun _ => true) 0,
      .descend (.atOffset 3)]
    run [group] moves = some ⟨text, [group]⟩ ∧ (∀ m ∈ moves, m.picksFromTree = true) ∧
      Found.OnPath [group] ⟨text, [group]⟩ ∧
      ⟨text, [group]⟩ ∈ findAll (.is none none) [group] ∧
      ∀ k ≤ Found.depth ⟨text, [group]⟩, ∃ g,
        run [group] (moves ++ List.replicate k .up) = some g ∧
          (g.parent? = none ↔ k = Found.depth ⟨text, [group]⟩) := by
  intro text group moves
  have hrun : run [group] moves = some ⟨text, [group]⟩ := by
    have hgroup : (Cursor.atOffset 3).isIn group.loc = true := by decide
    have htext : (Cursor.atOffset 3).isIn text.loc = true := by decide
    have hchildren : group.children = [text] := rfl
    have hleaf : text.children = [] := rfl
    simp [run, moves, apply, lookup, lookupFrom_cons_of_isIn, hgroup, htext, hchildren, hleaf,
      scope, findAll, Found.chain]
  have hmoves : ∀ m ∈ moves, m.picksFromTree = true := by simp [moves, picksFromTree]
  exact ⟨hrun, hmoves, run_stays_in_tree [group] hmoves _ hrun⟩

end Move

end TexTree

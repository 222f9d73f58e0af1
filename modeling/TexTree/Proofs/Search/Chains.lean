/-
TexTree/Proofs/Search/Chains.lean

Two ways to look for chains of nodes.  A pattern goes down, from the matches of its
first link to their children and on; a search lists every node with the nodes above
it, and a chain is then looked for upwards.  Both find the same chains, as often:

    chains of (ofLinks first rest)  ~  chains of findAll that the links accept

Only the order differs, since a pattern goes through all matches of one link before
it goes on to the next.

Design.  Every node of a forest is one of its own nodes or a child of a node of the
walk (`walk_perm`).  So one more link takes the pattern and the search from the same
chains to the same chains, and the induction is over the links, from the last one.
-/
import TexTree.Proofs.Search.Addresses
import TexTree.Search.Pattern

namespace TexTree

/-! ### Chains of links -/

/-- A link of a pattern: a kind of node, or any, and a condition, or none. -/
structure Link where
  kind : Option Kind := none
  condition : Option Predicate := none

/-- The link accepts a node. -/
def Link.accepts (l : Link) : Predicate := .is l.kind l.condition

namespace Pattern

/-- The pattern of a chain of links: a first one, and each further one below the one
before. -/
def ofLinks (first : Link) (rest : List Link) : Pattern :=
  rest.foldl (fun outer l => .child outer l.accepts) (.root first.accepts)

theorem ofLinks_concat (first : Link) (rest : List Link) (l : Link) :
    ofLinks first (rest ++ [l]) = .child (ofLinks first rest) l.accepts := by
  rw [ofLinks, List.foldl_append]
  rfl

end Pattern

/-- The chain of a match: its node, then the nodes of its outer matches. -/
def Match.chain (m : Match) : List Node := m.node :: m.parents

namespace Found

/-- There are enough nodes above for a chain of links, and the links accept them: the last
link the node, the one before its parent, and so on. -/
def endsChain (links : List Link) (f : Found) : Bool :=
  links.length ≤ f.depth + 1 &&
    (links.reverse.zip (f.node :: f.ancestors)).all fun x => x.1.accepts x.2

theorem endsChain_singleton (l : Link) (f : Found) : f.endsChain [l] = l.accepts f.node := by
  simp [endsChain]

/-- A chain of at least two links ends below another chain. -/
theorem endsChain_concat (links : List Link) (l : Link) (n : Node) (f : Found) :
    endsChain (links ++ [l]) ⟨n, f.node :: f.ancestors⟩ = (l.accepts n && f.endsChain links) := by
  simp only [endsChain, depth, List.length_append, List.length_cons, List.length_nil,
    List.reverse_append, List.reverse_singleton, List.singleton_append, List.zip_cons_cons,
    List.all_cons, Nat.add_le_add_iff_right]
  exact Bool.and_left_comm _ _ _

theorem endsChain_of_depth_eq_zero {links : List Link} (h : links ≠ []) (l : Link) (n : Node) :
    endsChain (links ++ [l]) ⟨n, []⟩ = false := by
  have hlength : ¬(links ++ [l]).length ≤ (Found.mk n []).depth + 1 := by
    have hpos := List.length_pos_of_ne_nil h
    rw [List.length_append]
    show ¬links.length + 1 ≤ 0 + 1
    omega
  rw [endsChain, decide_eq_false hlength, Bool.false_and]

/-- The nodes directly below a found node. -/
def below (f : Found) : List Found := f.node.children.map fun n => ⟨n, f.node :: f.ancestors⟩

end Found

/-! ### One more level -/

/-- **A walk is the forest and what is directly below the walk.** -/
theorem walk_perm (above ns : List Node) :
    (walk above ns).Perm (ns.map (fun n => ⟨n, above⟩) ++ (walk above ns).flatMap Found.below) := by
  fun_induction walk above ns with
  | case1 above => exact .nil
  | case2 above n ns ihc ihs =>
    rw [List.map_cons, List.flatMap_cons, List.flatMap_append, List.cons_append]
    refine .cons _ ((ihc.append ihs).trans ?_)
    -- the children of `n` and what is below them pass over the other nodes
    rw [← List.append_assoc (Found.below _)]
    exact List.perm_append_comm_assoc _ _ _

/-! ### Patterns and searches -/

/-- The chains that extend a chain of nodes by a child that is accepted. -/
def extendChain (p : Predicate) : List Node → List (List Node)
  | [] => []
  | n :: up => (n.children.filter p).map (· :: n :: up)

theorem map_chain_flatMap_extend (p : Predicate) (ms : List Match) :
    (ms.flatMap (Pattern.extend p)).map Match.chain =
      (ms.map Match.chain).flatMap (extendChain p) := by
  rw [List.map_flatMap, List.flatMap_map]
  refine List.flatMap_congr fun m _ => ?_
  rw [Pattern.extend, List.map_map]
  rfl

/-- The chains of the given links, in the order of a walk: those that end at a node which
the links accept together with the nodes above it. -/
def chainsOf (links : List Link) (fs : List Found) : List (List Node) :=
  (fs.filter (Found.endsChain links)).map fun f => (f.node :: f.ancestors).take links.length

theorem chainsOf_append (links : List Link) (fs gs : List Found) :
    chainsOf links (fs ++ gs) = chainsOf links fs ++ chainsOf links gs := by
  rw [chainsOf, List.filter_append, List.map_append]
  rfl

theorem chainsOf_perm (links : List Link) {fs gs : List Found} (h : fs.Perm gs) :
    (chainsOf links fs).Perm (chainsOf links gs) :=
  (h.filter _).map _

/-- One more link extends the chain that ends at a node by its children. -/
theorem chainsOf_below {links : List Link} (h : links ≠ []) (l : Link) (f : Found) :
    chainsOf (links ++ [l]) f.below = (chainsOf links [f]).flatMap (extendChain l.accepts) := by
  have hfilter : f.below.filter (Found.endsChain (links ++ [l])) =
      (f.node.children.filter fun n => l.accepts n && f.endsChain links).map
        fun n => ⟨n, f.node :: f.ancestors⟩ := by
    rw [Found.below, List.filter_map]
    refine congrArg _ (List.filter_congr fun n _ => ?_)
    exact Found.endsChain_concat links l n f
  rw [chainsOf, hfilter, List.map_map, chainsOf]
  obtain ⟨k, hk⟩ : ∃ k, links.length = k + 1 :=
    Nat.exists_eq_add_one_of_ne_zero (List.length_pos_of_ne_nil h).ne'
  -- the links before look at `f` only, so that they let all its children pass or none
  cases hends : f.endsChain links with
  | false => simp [hends]
  | true =>
    simp only [hends, Bool.and_true, List.filter_cons_of_pos, List.filter_nil, List.map_singleton,
      List.flatMap_singleton, List.length_append, List.length_singleton, hk, List.take_succ_cons,
      extendChain]
    rfl

theorem chainsOf_flatMap_below {links : List Link} (h : links ≠ []) (l : Link) (fs : List Found) :
    chainsOf (links ++ [l]) (fs.flatMap Found.below) =
      (chainsOf links fs).flatMap (extendChain l.accepts) := by
  induction fs with
  | nil => rfl
  | cons f fs ih =>
    rw [List.flatMap_cons, chainsOf_append, chainsOf_below h, ih, ← List.flatMap_append,
      ← chainsOf_append, List.singleton_append]

/-- At the top of a forest no chain of two links ends. -/
theorem chainsOf_top {links : List Link} (h : links ≠ []) (l : Link) (ns : List Node) :
    chainsOf (links ++ [l]) (ns.map fun n => ⟨n, []⟩) = [] := by
  rw [chainsOf, List.map_eq_nil_iff, List.filter_eq_nil_iff]
  intro f hf
  obtain ⟨n, -, rfl⟩ := List.mem_map.mp hf
  rw [Found.endsChain_of_depth_eq_zero h]
  exact Bool.false_ne_true

/-- One more link extends the chains of a forest by the children of their ends. -/
theorem chainsOf_concat_walk {links : List Link} (h : links ≠ []) (l : Link) (ns : List Node) :
    (chainsOf (links ++ [l]) (walk [] ns)).Perm
      ((chainsOf links (walk [] ns)).flatMap (extendChain l.accepts)) := by
  have hwalk := chainsOf_perm (links ++ [l]) (walk_perm [] ns)
  rw [chainsOf_append, chainsOf_top h, List.nil_append, chainsOf_flatMap_below h] at hwalk
  exact hwalk

/-- **Going down and looking up find the same chains.**  What a chain of links finds in a
forest, each match with its outer matches, is what a search for all nodes finds when it is
cut to the length of the chain, where the links accept the node and the nodes above it. -/
theorem chains_search_perm_findAll (first : Link) (rest : List Link) (ns : List Node) :
    (((Pattern.ofLinks first rest).search true ns).map Match.chain).Perm
      (((findAll (.is none none) ns).filter (Found.endsChain (first :: rest))).map
        fun f => (f.node :: f.ancestors).take (first :: rest).length) := by
  rw [findAll_is_none_none]
  show List.Perm _ (chainsOf (first :: rest) (walk [] ns))
  induction rest using List.reverseRecOn with
  | nil =>
    have hends : Found.endsChain [first] = fun f => first.accepts f.node := by
      funext f
      exact f.endsChain_singleton first
    rw [Pattern.ofLinks, List.foldl_nil, Pattern.search, if_pos rfl, findAll, chainsOf, hends,
      List.map_map]
    exact .refl _
  | append_singleton rest l ih =>
    -- on both sides the last link extends the chains of the links before it
    have hne : first :: rest ≠ [] := List.cons_ne_nil _ _
    rw [Pattern.ofLinks_concat, Pattern.search, map_chain_flatMap_extend, ← List.cons_append]
    exact (ih.flatMap_right _).trans (chainsOf_concat_walk hne l ns).symm

end TexTree

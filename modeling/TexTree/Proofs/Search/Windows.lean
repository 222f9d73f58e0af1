/-
TexTree/Proofs/Search/Windows.lean

A search for runs of siblings reports every run that the conditions accept, once and in
the order of the first nodes.

    Siblings ns owner above L       L is the forest ns, or the children of the node at the
                                    address owner; above is the chain of nodes above L
    RunAt ps L i                    the conditions accept the nodes of L from number i on
    ListsRuns ps ns starts ws       ws are the runs in ns, and they begin at starts

Design.  A walk forgets which nodes stand beside a node.  The listing `places` keeps them,
and the address as well, so that a walk, the addresses and the runs of a forest are all
read off it (`map_found_places`, `map_address_places`, `windowsBelow_eq_places`).  What it
holds is said without a recursion through the tree: the forest, and what is directly below
a place (`places_perm`).
-/
import TexTree.Proofs.Search.Addresses
import TexTree.Search.Window

namespace TexTree

open Node (sizeList sizeList_children_lt sizeList_tail_lt)

/-! ### Nodes among their siblings -/

/-- A node among its siblings: its number, the siblings after it, and the nodes above them,
the closest first.  The closest one owns the siblings, and `owner` is its address. -/
structure Place where
  owner : List Nat
  number : Nat
  node : Node
  later : List Node
  ancestors : List Node

namespace Place

/-- The address of the node. -/
def address (p : Place) : List Nat := p.owner ++ [p.number]

/-- The node as a search finds it. -/
def found (p : Place) : Found := ⟨p.node, p.ancestors⟩

/-- The siblings from the node on. -/
def onwards (p : Place) : List Node := p.node :: p.later

/-- The conditions accept the siblings from the node on. -/
def starts (ps : List Predicate) (p : Place) : Bool := startsWith ps p.onwards

/-- The run of the first `k` siblings from the node on. -/
def window (k : Nat) (p : Place) : Window := ⟨p.onwards.take k, p.ancestors⟩

end Place

/-- The places of one list of siblings, the first of which has the number `i`. -/
def level (owner : List Nat) (above : List Node) (i : Nat) : List Node → List Place
  | [] => []
  | n :: ns => ⟨owner, i, n, ns, above⟩ :: level owner above (i + 1) ns

/-- The places of a forest in pre-order, the first node of which has the number `i`. -/
def places (owner : List Nat) (above : List Node) (i : Nat) : List Node → List Place
  | [] => []
  | n :: ns =>
    ⟨owner, i, n, ns, above⟩ ::
      (places (owner ++ [i]) (n :: above) 0 n.children ++ places owner above (i + 1) ns)
termination_by ns => sizeList ns
decreasing_by
  · exact sizeList_children_lt n ns
  · exact sizeList_tail_lt n ns

/-- The places directly below a node. -/
def Place.below (p : Place) : List Place :=
  level p.address (p.node :: p.ancestors) 0 p.node.children

theorem mem_level {owner : List Nat} {above ns : List Node} {i : Nat} {p : Place} :
    p ∈ level owner above i ns ↔
      p.owner = owner ∧ p.ancestors = above ∧ ∃ j, p.number = i + j ∧ ns.drop j = p.onwards := by
  induction ns generalizing i with
  | nil =>
    constructor
    · intro h
      cases h
    · rintro ⟨-, -, j, -, h⟩
      rw [List.drop_nil] at h
      cases h
  | cons n ns ih =>
    rw [level, List.mem_cons, ih]
    constructor
    · rintro (rfl | ⟨howner, habove, j, hj, h⟩)
      · exact ⟨rfl, rfl, 0, rfl, rfl⟩
      · exact ⟨howner, habove, j + 1, by omega, h⟩
    · rintro ⟨howner, habove, j, hj, h⟩
      cases j with
      | zero =>
        obtain ⟨hnode, hlater⟩ := List.cons.inj h
        left
        cases p
        simp_all
      | succ j => exact .inr ⟨howner, habove, j, by omega, h⟩

/-- **The places of a forest are those of its own nodes and those directly below its
places.** -/
theorem places_perm (owner : List Nat) (above : List Node) (i : Nat) (ns : List Node) :
    (places owner above i ns).Perm
      (level owner above i ns ++ (places owner above i ns).flatMap Place.below) := by
  fun_induction places owner above i ns with
  | case1 owner above i => exact .nil
  | case2 owner above i n ns ihc ihs =>
    rw [level, List.flatMap_cons, List.flatMap_append, List.cons_append]
    refine .cons _ ((ihc.append ihs).trans ?_)
    -- the children of `n` and what is below them pass over the other nodes
    rw [← List.append_assoc (Place.below _)]
    exact List.perm_append_comm_assoc _ _ _

/-! ### Walks, addresses and runs as images of the places -/

/-- The walk of a forest visits its places. -/
theorem map_found_places (owner : List Nat) (above : List Node) (i : Nat) (ns : List Node) :
    (places owner above i ns).map Place.found = walk above ns := by
  fun_induction places owner above i ns with
  | case1 owner above i => exact (walk_nil above).symm
  | case2 owner above i n ns ihc ihs =>
    rw [walk_cons, List.map_cons, List.map_append, ihc, ihs]
    rfl

/-- The addresses of a forest are those of its places. -/
theorem map_address_places (owner : List Nat) (above : List Node) (i : Nat) (ns : List Node) :
    (places owner above i ns).map Place.address = (addressesFrom i ns).map (owner ++ ·) := by
  fun_induction places owner above i ns with
  | case1 owner above i =>
    rw [addressesFrom]
    rfl
  | case2 owner above i n ns ihc ihs =>
    -- an address below `n` is an address of its children behind the number of `n`
    have hbelow : (addressesFrom 0 n.children).map ((owner ++ [i]) ++ ·) =
        ((addressesFrom 0 n.children).map (i :: ·)).map (owner ++ ·) := by
      rw [List.map_map]
      refine List.map_congr_left fun a _ => ?_
      exact List.append_assoc owner [i] a
    rw [addressesFrom, List.map_cons, List.map_append, ihc, ihs, hbelow, ← List.map_append]
    rfl

/-- The runs in a forest begin at the places where the conditions accept the siblings. -/
theorem windowsBelow_eq_places (ps : List Predicate) (owner : List Nat) (above : List Node)
    (i : Nat) (ns : List Node) :
    windowsBelow ps above ns =
      ((places owner above i ns).filter (Place.starts ps)).map
        (Place.window ps.length) := by
  fun_induction places owner above i ns with
  | case1 owner above i => exact windowsBelow_nil ps above
  | case2 owner above i n ns ihc ihs =>
    rw [windowsBelow_cons, ihc, ihs, windowAt]
    by_cases h : startsWith ps (n :: ns) = true
    · have hstarts : Place.starts ps ⟨owner, i, n, ns, above⟩ = true := h
      rw [if_pos h, List.filter_cons_of_pos hstarts, List.filter_append, List.map_cons,
        List.map_append]
      rfl
    · have hstarts : ¬Place.starts ps ⟨owner, i, n, ns, above⟩ = true := h
      rw [if_neg h, List.filter_cons_of_neg hstarts, List.filter_append, List.map_append]
      rfl

theorem map_address_places_top (ns : List Node) :
    (places [] [] 0 ns).map Place.address = addresses ns := by
  rw [map_address_places]
  exact List.map_id _

/-- Each address of a forest beside what a search finds there. -/
theorem zip_addresses_findAll (ns : List Node) :
    (addresses ns).zip (findAll (.is none none) ns) =
      (places [] [] 0 ns).map fun p => (p.address, p.found) := by
  rw [← map_address_places_top, findAll_is_none_none, ← map_found_places [] [] 0 ns,
    List.zip_map']

/-- The runs in a forest, for at least one condition. -/
theorem windows_cons (p : Predicate) (ps : List Predicate) (ns : List Node) :
    windows (p :: ps) ns =
      ((places [] [] 0 ns).filter (Place.starts (p :: ps))).map
        (Place.window (p :: ps).length) :=
  windowsBelow_eq_places (p :: ps) [] [] 0 ns

/-! ### Lists of siblings -/

/-- The lists of siblings in a forest: the forest itself, with no node above it, and the
children of each node that a search reports, with that node and the nodes above it.  The
owner is the address of that node. -/
inductive Siblings (ns : List Node) : List Nat → List Node → List Node → Prop
  | top : Siblings ns [] [] ns
  | below {owner : List Nat} {f : Found}
      (h : (owner, f) ∈ (addresses ns).zip (findAll (.is none none) ns)) :
      Siblings ns owner (f.node :: f.ancestors) f.node.children

/-- The places of a forest are the nodes of its lists of siblings. -/
theorem mem_places_iff {ns : List Node} {p : Place} :
    p ∈ places [] [] 0 ns ↔
      ∃ L, Siblings ns p.owner p.ancestors L ∧ L.drop p.number = p.onwards := by
  rw [(places_perm [] [] 0 ns).mem_iff, List.mem_append, List.mem_flatMap, mem_level]
  constructor
  · rintro (⟨howner, habove, j, hj, h⟩ | ⟨q, hq, hp⟩)
    · rw [howner, habove, hj, Nat.zero_add]
      exact ⟨ns, .top, h⟩
    · obtain ⟨howner, habove, j, hj, h⟩ := mem_level.mp hp
      have hzip : (q.address, q.found) ∈ (addresses ns).zip (findAll (.is none none) ns) := by
        rw [zip_addresses_findAll]
        exact List.mem_map.mpr ⟨q, hq, rfl⟩
      rw [howner, habove, hj, Nat.zero_add]
      exact ⟨q.node.children, .below hzip, h⟩
  · rintro ⟨L, hL, h⟩
    obtain ⟨owner, i, n, later, above⟩ := p
    cases hL with
    | top => exact .inl ⟨rfl, rfl, i, (Nat.zero_add i).symm, h⟩
    | below hzip =>
      rw [zip_addresses_findAll] at hzip
      obtain ⟨q, hq, heq⟩ := List.mem_map.mp hzip
      obtain ⟨rfl, rfl⟩ := Prod.mk.inj heq
      exact .inr ⟨q, hq, mem_level.mpr ⟨rfl, rfl, i, (Nat.zero_add i).symm, h⟩⟩

/-! ### Runs -/

/-- The conditions accept the siblings from number `i` on, one by one, and there are enough
of them. -/
def RunAt (ps : List Predicate) (L : List Node) (i : Nat) : Prop :=
  i + ps.length ≤ L.length ∧
    ∀ (j : Nat) (p : Predicate) (n : Node), ps[j]? = some p → L[i + j]? = some n → p n = true

theorem startsWith_iff {ps : List Predicate} {L : List Node} :
    startsWith ps L = true ↔ RunAt ps L 0 := by
  fun_induction startsWith ps L with
  | case1 L => simp [RunAt]
  | case2 p ps => simp [RunAt]
  | case3 p ps n L ih =>
    rw [Bool.and_eq_true, ih]
    constructor
    · rintro ⟨hp, hlength, haccept⟩
      refine ⟨by simpa using hlength, fun j q m hq hm => ?_⟩
      cases j with
      | zero =>
        obtain ⟨rfl⟩ := hq
        obtain ⟨rfl⟩ := hm
        exact hp
      | succ j => exact haccept j q m hq (by simpa using hm)
    · rintro ⟨hlength, haccept⟩
      refine ⟨haccept 0 p n rfl rfl, by simpa using hlength, fun j q m hq hm => ?_⟩
      exact haccept (j + 1) q m hq (by simpa using hm)

theorem startsWith_drop_iff {p : Predicate} {ps : List Predicate} {L : List Node} {i : Nat} :
    startsWith (p :: ps) (L.drop i) = true ↔ RunAt (p :: ps) L i := by
  simp only [startsWith_iff, RunAt, List.length_drop, List.getElem?_drop, List.length_cons,
    Nat.zero_add]
  refine and_congr_left fun _ => ?_
  omega

/-- The runs of the forest that the conditions accept are `ws`, and their first nodes have
the addresses `starts`: each run once, in the order of these addresses. -/
structure ListsRuns (ps : List Predicate) (ns : List Node) (starts : List (List Nat))
    (ws : List Window) : Prop where
  increasing : starts.Pairwise (· < ·)
  mem_iff : ∀ a, a ∈ starts ↔
    ∃ owner i above L, a = owner ++ [i] ∧ Siblings ns owner above L ∧ RunAt ps L i
  reported : List.Forall₂ (fun a w => ∃ owner i L, a = owner ++ [i] ∧
    Siblings ns owner w.ancestors L ∧ w.nodes = (L.drop i).take ps.length) starts ws

/-- The search reports the runs in a forest. -/
theorem listsRuns_windows (p : Predicate) (ps : List Predicate) (ns : List Node) :
    ∃ starts, ListsRuns (p :: ps) ns starts (windows (p :: ps) ns) := by
  refine ⟨((places [] [] 0 ns).filter (Place.starts (p :: ps))).map Place.address,
    ?_, fun a => ?_, ?_⟩
  · have hsub : (((places [] [] 0 ns).filter (Place.starts (p :: ps))).map Place.address).Sublist
        ((places [] [] 0 ns).map Place.address) := List.filter_sublist.map Place.address
    rw [map_address_places_top] at hsub
    exact (pairwise_addressesFrom 0 ns).sublist hsub
  · rw [List.mem_map]
    constructor
    · rintro ⟨x, hx, rfl⟩
      obtain ⟨hx, hstarts⟩ := List.mem_filter.mp hx
      obtain ⟨L, hL, hdrop⟩ := mem_places_iff.mp hx
      rw [Place.starts, ← hdrop] at hstarts
      exact ⟨x.owner, x.number, x.ancestors, L, rfl, hL, startsWith_drop_iff.mp hstarts⟩
    · rintro ⟨owner, i, above, L, rfl, hL, hrun⟩
      have hi : i < L.length := by
        have hlength := hrun.1
        rw [List.length_cons] at hlength
        omega
      have hdrop := List.drop_eq_getElem_cons hi
      refine ⟨⟨owner, i, L[i], L.drop (i + 1), above⟩, List.mem_filter.mpr ⟨?_, ?_⟩, rfl⟩
      · exact mem_places_iff.mpr ⟨L, hL, hdrop⟩
      · have hstarts := startsWith_drop_iff.mpr hrun
        rw [hdrop] at hstarts
        exact hstarts
  · rw [windows_cons, List.forall₂_map_left_iff, List.forall₂_map_right_iff, List.forall₂_same]
    intro x hx
    obtain ⟨L, hL, hdrop⟩ := mem_places_iff.mp (List.mem_of_mem_filter hx)
    exact ⟨x.owner, x.number, L, rfl, hL, by rw [hdrop]; rfl⟩

/-! ### Runs of one and of two nodes -/

/-- The run of a pair. -/
def Pair.window (x : Pair) : Window := ⟨[x.first, x.second], x.ancestors⟩

/-- The first node of a pair as a search finds it. -/
def Pair.found (x : Pair) : Found := ⟨x.first, x.ancestors⟩

/-- A search finds the nodes that a condition accepts at their places. -/
theorem findAll_eq_places (p : Predicate) (ns : List Node) :
    findAll p ns = ((places [] [] 0 ns).filter fun x => p x.node).map Place.found := by
  rw [findAll, ← map_found_places [] [] 0 ns, List.filter_map]
  rfl

/-- A run of one node is a node that a search finds. -/
theorem singles_eq_findAll (p : Predicate) (ns : List Node) : singles p ns = findAll p ns := by
  have hstarts : Place.starts [p] = fun x => p x.node := by
    funext x
    exact Bool.and_true _
  rw [singles, windows_cons, hstarts, findAll_eq_places, List.filterMap_map]
  exact congrFun List.filterMap_eq_map _

/-- The node and the sibling after it, if there is one. -/
def Place.pair? (x : Place) : Option Pair := x.later.head?.map (⟨x.node, ·, x.ancestors⟩)

/-- The pairs that two conditions accept, at the places where they accept. -/
theorem pairs_eq_places (p q : Predicate) (ns : List Node) :
    pairs p q ns =
      ((places [] [] 0 ns).filter (Place.starts [p, q])).filterMap Place.pair? := by
  rw [pairs, windows_cons, List.filterMap_map]
  refine List.filterMap_congr fun x _ => ?_
  obtain ⟨owner, i, n, later, above⟩ := x
  cases later <;> rfl

/-- Where two conditions accept, there is a sibling after the node. -/
theorem exists_later_of_starts {p q : Predicate} {x : Place}
    (h : x.starts [p, q] = true) : ∃ m later, x.later = m :: later := by
  cases hlater : x.later with
  | nil =>
    rw [Place.starts, Place.onwards, hlater, startsWith, startsWith, Bool.and_false] at h
    cases h
  | cons m later => exact ⟨m, later, rfl⟩

/-- Whatever is read off the pairs that two conditions accept can be read off the places
where they accept. -/
theorem map_pairs {α : Type} {f : Pair → α} {g : Place → α}
    (h : ∀ (x : Place) (m : Node) (later : List Node), x.later = m :: later →
      f ⟨x.node, m, x.ancestors⟩ = g x) (p q : Predicate) (ns : List Node) :
    (pairs p q ns).map f =
      ((places [] [] 0 ns).filter (Place.starts [p, q])).map g := by
  rw [pairs_eq_places, List.map_filterMap, ← List.filterMap_eq_map]
  refine List.filterMap_congr fun x hx => ?_
  obtain ⟨m, later, hlater⟩ := exists_later_of_starts (List.mem_filter.mp hx).2
  rw [Place.pair?, hlater]
  exact congrArg some (h x m later hlater)

/-- The pairs are the runs of two nodes. -/
theorem map_window_pairs (p q : Predicate) (ns : List Node) :
    (pairs p q ns).map Pair.window = windows [p, q] ns := by
  rw [windows_cons]
  refine map_pairs (fun x m later hlater => ?_) p q ns
  rw [Place.window, Place.onwards, hlater]
  rfl

/-- The first nodes of the pairs are among the nodes that the first condition finds. -/
theorem map_found_pairs_sublist (p q : Predicate) (ns : List Node) :
    ((pairs p q ns).map Pair.found).Sublist (findAll p ns) := by
  rw [findAll_eq_places, map_pairs (fun x m later _ => (rfl : _ = x.found)) p q ns]
  refine List.Sublist.map Place.found (List.monotone_filter_right _ fun x hx => ?_)
  exact (Bool.and_eq_true_iff.mp hx).1

/-- **A search for runs reports exactly the runs in the forest**, in the order of their first
nodes, and none without conditions.  Runs of one node are what a search for nodes finds, with
the same nodes above, and runs of two are the pairs of neighbours that both conditions accept,
the first of which are among the nodes that a search for the first condition finds. -/
theorem windows_lists_runs (ns : List Node) :
    (∀ p ps, ∃ starts, ListsRuns (p :: ps) ns starts (windows (p :: ps) ns)) ∧
    windows [] ns = [] ∧
    (∀ (kind : Option Kind) (p : Option Predicate),
      singles (.is kind p) ns = findAll (.is kind p) ns) ∧
    (∀ (kind₁ kind₂ : Option Kind) (p₁ p₂ : Option Predicate),
      (∃ starts, ListsRuns [.is kind₁ p₁, .is kind₂ p₂] ns starts
        ((pairs (.is kind₁ p₁) (.is kind₂ p₂) ns).map Pair.window)) ∧
      ((pairs (.is kind₁ p₁) (.is kind₂ p₂) ns).map Pair.found).Sublist
        (findAll (.is kind₁ p₁) ns)) := by
  refine ⟨fun p ps => listsRuns_windows p ps ns, rfl, fun kind p => singles_eq_findAll _ ns,
    fun kind₁ kind₂ p₁ p₂ => ⟨?_, map_found_pairs_sublist _ _ ns⟩⟩
  rw [map_window_pairs]
  exact listsRuns_windows _ _ ns

end TexTree

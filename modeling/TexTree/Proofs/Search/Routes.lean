/-
TexTree/Proofs/Search/Routes.lean

In which order a pattern finds its matches.

    Route ns p a m       the match m of the pattern p stands at the end of the route a: the
                         number of its outermost node in ns, then the number of each further
                         node among the children of the one before

    p.search true ns  =  p.search false [n]  for every node n of the forest, one after the other

On the given nodes alone, a pattern finds one match for each route, and the routes grow in the
lexicographic order: matches of the outer pattern come first to last, and for each of them its
children first to last.

Design.  `routed p ns` lists the matches together with their routes, by the recursion of the
search.  The search is the second half of it (`map_snd_routed`), and the order is shown on the
first half, one link after the other; routes of one pattern are of one length, so that a later
link never decides between routes that an earlier one tells apart.
-/
import TexTree.Proofs.Search.Addresses
import TexTree.Search.Pattern

namespace TexTree

namespace Pattern

/-! ### Every node of a forest -/

/-- A search through all nodes is a search of each of them alone. -/
theorem search_deep_eq_flatMap (p : Pattern) (ns : List Node) :
    p.search true ns = (walk [] ns).flatMap fun f => p.search false [f.node] := by
  induction p with
  | root p =>
    show ((walk [] ns).filter fun f => p f.node).map _ = _
    induction walk [] ns with
    | nil => rfl
    | cons f fs ih =>
      rw [List.flatMap_cons, ← ih]
      cases hf : p f.node with
      | true => simp [search, hf]
      | false => simp [search, hf]
  | child outer p ih =>
    rw [search, ih, List.flatMap_assoc]
    rfl

/-! ### Routes -/

/-- The match stands at the end of the route. -/
inductive Route (ns : List Node) : Pattern → List Nat → Match → Prop
  | root {p : Predicate} {i : Nat} {n : Node} (h : ns[i]? = some n) (accepts : p n = true) :
      Route ns (.root p) [i] ⟨n, []⟩
  | child {outer : Pattern} {p : Predicate} {a : List Nat} {m : Match} {i : Nat} {n : Node}
      (hm : Route ns outer a m) (h : m.node.children[i]? = some n) (accepts : p n = true) :
      Route ns (.child outer p) (a ++ [i]) ⟨n, m.node :: m.parents⟩

/-- The nodes of a list that satisfy a condition, with their numbers. -/
def numbered (p : Predicate) (ns : List Node) : List (Node × Nat) :=
  ns.zipIdx.filter fun x => p x.1

/-- What a pattern finds among the given nodes, each match with its route. -/
def routed (ns : List Node) : Pattern → List (List Nat × Match)
  | .root p => (numbered p ns).map fun x => ([x.2], ⟨x.1, []⟩)
  | .child outer p =>
    (routed ns outer).flatMap fun r =>
      (numbered p r.2.node.children).map fun x => (r.1 ++ [x.2], ⟨x.1, r.2.node :: r.2.parents⟩)

theorem mem_numbered {p : Predicate} {ns : List Node} {x : Node × Nat} :
    x ∈ numbered p ns ↔ ns[x.2]? = some x.1 ∧ p x.1 = true := by
  rw [numbered, List.mem_filter, List.mem_zipIdx_iff_getElem?]

theorem map_fst_numbered (p : Predicate) (ns : List Node) :
    (numbered p ns).map Prod.fst = ns.filter p := by
  have hfilter := List.filter_map (l := ns.zipIdx) (p := p) (f := Prod.fst)
  rw [List.zipIdx_map_fst] at hfilter
  exact hfilter.symm

/-- The numbers of the nodes of a list grow. -/
theorem pairwise_numbered (p : Predicate) (ns : List Node) :
    (numbered p ns).Pairwise fun x y => x.2 < y.2 := by
  have hnumbers : (ns.zipIdx.map Prod.snd).Pairwise (· < ·) := by
    rw [List.zipIdx_map_snd]
    exact List.pairwise_lt_range'
  exact (List.pairwise_map.mp hnumbers).filter _

/-- A search is the listing with the routes left out. -/
theorem map_snd_routed (p : Pattern) (ns : List Node) :
    (routed ns p).map Prod.snd = p.search false ns := by
  induction p with
  | root p =>
    rw [routed, List.map_map, search, ← map_fst_numbered, List.map_map]
    rfl
  | child outer p ih =>
    rw [routed, List.map_flatMap, search, ← ih, List.flatMap_map]
    refine List.flatMap_congr fun r _ => ?_
    rw [List.map_map, extend, ← map_fst_numbered, List.map_map]
    rfl

/-- **The listing has the matches at the ends of the routes.** -/
theorem mem_routed {p : Pattern} {ns : List Node} {r : List Nat × Match} :
    r ∈ routed ns p ↔ Route ns p r.1 r.2 := by
  induction p generalizing r with
  | root p =>
    rw [routed, List.mem_map]
    constructor
    · rintro ⟨x, hx, rfl⟩
      obtain ⟨h, accepts⟩ := mem_numbered.mp hx
      exact .root h accepts
    · obtain ⟨a, m⟩ := r
      rintro (⟨h, accepts⟩ : Route ns (.root p) a m)
      exact ⟨(_, _), mem_numbered.mpr ⟨h, accepts⟩, rfl⟩
  | child outer p ih =>
    rw [routed, List.mem_flatMap]
    constructor
    · rintro ⟨s, hs, hr⟩
      obtain ⟨x, hx, rfl⟩ := List.mem_map.mp hr
      obtain ⟨h, accepts⟩ := mem_numbered.mp hx
      exact .child (ih.mp hs) h accepts
    · obtain ⟨a, m⟩ := r
      intro hroute
      cases hroute with
      | child hm h accepts =>
        exact ⟨(_, _), ih.mpr hm, List.mem_map.mpr ⟨(_, _), mem_numbered.mpr ⟨h, accepts⟩, rfl⟩⟩

/-! ### Their order -/

/-- How many conditions a pattern has. -/
def length : Pattern → Nat
  | .root _ => 1
  | .child outer _ => outer.length + 1

/-- A route has a number for each condition. -/
theorem Route.length_eq {ns : List Node} {p : Pattern} {a : List Nat} {m : Match}
    (h : Route ns p a m) : a.length = p.length := by
  induction h with
  | root => rfl
  | child hm h accepts ih => rw [List.length_append, ih]; rfl

/-- Lists of one length that differ compare as before when both are continued. -/
theorem append_lt_append_of_lt {a b : List Nat} (hlength : a.length = b.length) (h : a < b)
    (c d : List Nat) : a ++ c < b ++ d := by
  induction a generalizing b with
  | nil =>
    cases b with
    | nil => cases h
    | cons j b => cases hlength
  | cons i a ih =>
    cases b with
    | nil => cases hlength
    | cons j b =>
      rw [List.cons_append, List.cons_append, List.cons_lt_cons_iff]
      rcases List.cons_lt_cons_iff.mp h with hlt | ⟨rfl, hlt⟩
      · exact .inl hlt
      · exact .inr ⟨rfl, ih (Nat.succ.inj hlength) hlt⟩

/-- **The routes grow.** -/
theorem pairwise_routed (p : Pattern) (ns : List Node) :
    ((routed ns p).map Prod.fst).Pairwise (· < ·) := by
  rw [List.pairwise_map]
  induction p with
  | root p =>
    rw [routed, List.pairwise_map]
    exact (pairwise_numbered p ns).imp fun h => List.cons_lt_cons_iff.mpr (.inl h)
  | child outer p ih =>
    rw [routed, List.pairwise_flatMap]
    constructor
    · -- the children of one match have the route of the match and a number of their own
      intro r _
      rw [List.pairwise_map]
      refine (pairwise_numbered p _).imp fun h => ?_
      exact List.append_left_lt (List.cons_lt_cons_iff.mpr (.inl h))
    · -- the children of two matches are told apart by the routes of the matches
      refine ih.imp_of_mem fun {r s} hr hs hlt x hx y hy => ?_
      obtain ⟨u, -, rfl⟩ := List.mem_map.mp hx
      obtain ⟨v, -, rfl⟩ := List.mem_map.mp hy
      have hlength : r.1.length = s.1.length := by
        rw [(mem_routed.mp hr).length_eq, (mem_routed.mp hs).length_eq]
      exact append_lt_append_of_lt hlength hlt _ _

/-- **A search through all nodes puts the pattern to each of them, and a search of the given
nodes goes through the routes in order.**  The first is the concatenation of what the pattern
finds at each node that a search for all nodes reports.  Both find in two forests side by side
what they find in each.  The matches among the given nodes stand at the ends of the routes of
the pattern, each route once and in lexicographic order. -/
theorem search_follows_routes (p : Pattern) :
    (∀ ns, p.search true ns =
      (findAll (.is none none) ns).flatMap fun f => p.search false [f.node]) ∧
    (∀ deep ns ms, p.search deep (ns ++ ms) = p.search deep ns ++ p.search deep ms) ∧
    ∀ ns, ∃ routes : List (List Nat), routes.Pairwise (· < ·) ∧
      (∀ a, a ∈ routes ↔ ∃ m, Route ns p a m) ∧
      List.Forall₂ (Route ns p) routes (p.search false ns) := by
  refine ⟨fun ns => ?_, fun deep ns ms => search_append deep ns ms p, fun ns => ?_⟩
  · rw [findAll_is_none_none]
    exact search_deep_eq_flatMap p ns
  · refine ⟨(routed ns p).map Prod.fst, pairwise_routed p ns, fun a => ?_, ?_⟩
    · rw [List.mem_map]
      constructor
      · rintro ⟨r, hr, rfl⟩
        exact ⟨r.2, mem_routed.mp hr⟩
      · rintro ⟨m, hm⟩
        exact ⟨(a, m), mem_routed.mpr hm, rfl⟩
    · rw [← map_snd_routed, List.forall₂_map_left_iff, List.forall₂_map_right_iff,
        List.forall₂_same]
      exact fun r hr => mem_routed.mp hr

end Pattern

end TexTree

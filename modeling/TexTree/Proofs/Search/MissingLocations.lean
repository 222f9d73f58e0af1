/-
TexTree/Proofs/Search/MissingLocations.lean

Looking up a place in a forest where some nodes have no location.  The spans that are known
are taken to be well nested: a node lies within the closest node above it that has a location,
and nodes that are not above one another stand apart.

    NestedWhereLocated k ns      the spans that are known are well nested
    FindsInnermost c ns          the lookup finds the innermost node around the cursor, and
                                 nothing only where there is none

A lookup does not look below a node without a location.  It follows the nodes around the
cursor down to the first gap,

    nodes around c with no gap above them  =  lineage (chain of the node that lookup c ns finds)

so that it finds the innermost one exactly when there is no gap above any of them.

Design.  Of the spans only two facts are used, and both are about the cursor (`OnOnePath`): a
cursor in a node is in every node above it that has a location, and of two nodes around a
cursor one is above the other.  They are said of a listing of places, so that they pass to the
parts of a forest with the listing.
-/
import TexTree.Proofs.Search.Navigation
import TexTree.Proofs.Search.Nesting
import TexTree.Proofs.Search.Windows

namespace TexTree

/-! ### Spans where they are known -/

/-- The node has a location. -/
def Node.isLocated (n : Node) : Bool := n.loc.isSome

namespace Found

/-- The closest node above that has a location. -/
def closestLocated? (f : Found) : Option Node := f.ancestors.find? Node.isLocated

/-- All nodes above have locations. -/
def isReachable (f : Found) : Bool := f.ancestors.all Node.isLocated

end Found

/-- Each node that has a location lies within the closest node above it that has one, and of
two nodes with locations one is above the other or they stand apart.  Nodes without a location
may stand anywhere. -/
structure NestedWhereLocated (k : Coordinate) (ns : List Node) : Prop where
  inside : ∀ f ∈ findAll (.is none none) ns, ∀ n ∈ f.closestLocated?, Inside k f.node n
  apart : ∀ x ∈ (addresses ns).zip (findAll (.is none none) ns),
    ∀ y ∈ (addresses ns).zip (findAll (.is none none) ns),
      ¬x.1 <+: y.1 → ¬y.1 <+: x.1 → Apart k x.2.node y.2.node

/-- What a lookup is to give: nothing only where no node is around the cursor, and otherwise a
node around the cursor such that all others around it are above that one. -/
structure FindsInnermost (c : Cursor) (ns : List Node) : Prop where
  none : lookup c ns = none → containing c ns = []
  innermost : ∀ f, lookup c ns = some f →
    f ∈ containing c ns ∧ ∀ g ∈ containing c ns, g ∈ lineage (Found.chain (some f))

/-! ### A cursor and the places around it -/

/-- A cursor in one of the places is in the nodes above it as far as they have locations, and
of two places around the cursor one is above the other. -/
structure OnOnePath (c : Cursor) (ps : List Place) : Prop where
  up : ∀ p ∈ ps, c.isIn p.node.loc = true →
    ∀ a ∈ p.ancestors, a.isLocated = true → c.isIn a.loc = true
  comparable : ∀ p ∈ ps, ∀ q ∈ ps, c.isIn p.node.loc = true → c.isIn q.node.loc = true →
    p.address <+: q.address ∨ q.address <+: p.address

theorem OnOnePath.mono {c : Cursor} {ps qs : List Place} (h : OnOnePath c ps) (hsub : qs ⊆ ps) :
    OnOnePath c qs where
  up p hp := h.up p (hsub hp)
  comparable p hp q hq := h.comparable p (hsub hp) q (hsub hq)

/-- The nodes on the way up from a node on a path are on a path. -/
theorem Found.OnPath.of_suffix {ns : List Node} {f : Found} (hf : f.OnPath ns) {n : Node}
    {above : List Node} (h : n :: above <:+ f.node :: f.ancestors) :
    Found.OnPath ns ⟨n, above⟩ := by
  induction hf with
  | @top f hparent hnode =>
    rcases List.suffix_cons_iff.mp h with heq | hsuffix
    · obtain ⟨rfl, rfl⟩ := List.cons.inj heq
      exact .top hparent hnode
    · rw [Found.parent?_eq_none_iff.mp hparent] at hsuffix
      cases List.suffix_nil.mp hsuffix
  | @child f g hparent hnode hg ih =>
    rcases List.suffix_cons_iff.mp h with heq | hsuffix
    · obtain ⟨rfl, rfl⟩ := List.cons.inj heq
      exact .child hparent hnode hg
    · rw [Found.parent?_eq_some_iff.mp hparent] at hsuffix
      exact ih hsuffix

section Cursors

variable {k : Coordinate} {p : Point} {s e : Bool}

/-- A cursor in a node is in all located nodes of a chain above it, when the node and each
node of the chain lie within the closest located node further up. -/
theorem isIn_of_chain {m : Node} {chain : List Node} (hm : (k.cursor p s e).isIn m.loc = true)
    (hfirst : ∀ n ∈ chain.find? Node.isLocated, Inside k m n)
    (hchain : ∀ n above, n :: above <:+ chain →
      ∀ r ∈ above.find? Node.isLocated, Inside k n r) :
    ∀ a ∈ chain, a.isLocated = true → (k.cursor p s e).isIn a.loc = true := by
  -- by induction up the chain; a node that has a location takes the part of `m`
  induction chain generalizing m with
  | nil => exact fun a ha => nomatch ha
  | cons n above ih =>
    intro a ha hlocated
    have hup : ∀ x higher, x :: higher <:+ above →
        ∀ r ∈ higher.find? Node.isLocated, Inside k x r := fun x higher h =>
      hchain x higher (h.trans (List.suffix_cons n above))
    cases hn : n.isLocated with
    | true =>
      have hin : (k.cursor p s e).isIn n.loc = true :=
        (hfirst n (List.find?_cons_of_pos hn)).isIn hn hm
      rcases List.mem_cons.mp ha with rfl | ha
      · exact hin
      · exact ih hin (hchain n above (List.suffix_refl _)) hup a ha hlocated
    | false =>
      rw [List.find?_cons_of_neg (Bool.eq_false_iff.mp hn)] at hfirst
      rcases List.mem_cons.mp ha with rfl | ha
      · exact absurd hlocated (Bool.eq_false_iff.mp hn)
      · exact ih hm hfirst hup a ha hlocated

/-- **Well-nested spans put the nodes around a cursor on one path.** -/
theorem NestedWhereLocated.onOnePath {ns : List Node} (hns : NestedWhereLocated k ns)
    (hends : ¬(s = true ∧ e = true)) : OnOnePath (k.cursor p s e) (places [] [] 0 ns) where
  up x hx hin := by
    have hpath : x.found.OnPath ns := by
      rw [onPath_iff_mem_walk, ← map_found_places [] [] 0 ns]
      exact List.mem_map_of_mem hx
    -- every node on the way up is one of those that a search reports
    have hinside : ∀ n above, n :: above <:+ x.node :: x.ancestors →
        ∀ r ∈ above.find? Node.isLocated, Inside k n r := by
      intro n above hsuffix
      refine hns.inside ⟨n, above⟩ ?_
      rw [findAll_is_none_none, ← onPath_iff_mem_walk]
      exact hpath.of_suffix hsuffix
    refine isIn_of_chain hin (hinside x.node x.ancestors (List.suffix_refl _)) fun n above h => ?_
    exact hinside n above (h.trans (List.suffix_cons _ _))
  comparable x hx y hy hxin hyin := by
    have hzip : ∀ z ∈ places [] [] 0 ns,
        (z.address, z.found) ∈ (addresses ns).zip (findAll (.is none none) ns) := by
      intro z hz
      rw [zip_addresses_findAll]
      exact List.mem_map_of_mem hz
    by_contra hneither
    obtain ⟨hxy, hyx⟩ := not_or.mp hneither
    have hapart : Apart k x.node y.node := hns.apart _ (hzip x hx) _ (hzip y hy) hxy hyx
    exact absurd hyin (Bool.eq_false_iff.mp (hapart.not_isIn hends hxin))

end Cursors

/-! ### What a lookup reaches -/

/-- A walk below a chain has the chain above every node. -/
theorem mem_ancestors_of_mem_walk {above ns : List Node} {f : Found} (h : f ∈ walk above ns) :
    ∀ a ∈ above, a ∈ f.ancestors := by
  fun_induction walk above ns with
  | case1 above => cases h
  | case2 above n ns ihc ihs =>
    intro a ha
    rcases List.mem_cons.mp h with rfl | h
    · exact ha
    · rcases List.mem_append.mp h with h | h
      · exact ihc h a (List.mem_cons_of_mem n ha)
      · exact ihs h a ha

/-- A place of a forest has the number of one of its nodes behind the address of the owner. -/
theorem exists_address_of_mem_places {owner : List Nat} {above ns : List Node} {i : Nat}
    {p : Place} (h : p ∈ places owner above i ns) : ∃ j b, i ≤ j ∧ p.address = owner ++ j :: b := by
  have haddress : p.address ∈ (places owner above i ns).map Place.address := List.mem_map_of_mem h
  rw [map_address_places] at haddress
  obtain ⟨a, ha, heq⟩ := List.mem_map.mp haddress
  obtain ⟨j, b, rfl, -⟩ := mem_addressesFrom.mp ha
  exact ⟨i + j, b, Nat.le_add_right i j, heq.symm⟩

/-- The node is around the cursor, and all nodes above it have locations. -/
def Found.isReached (c : Cursor) (f : Found) : Bool := f.isReachable && f.isAround c

section Lookup

variable {c : Cursor} {owner : List Nat} {above ns : List Node} {i : Nat} {n : Node}

/-- Where a node is around the cursor, nothing among its later siblings is. -/
theorem OnOnePath.filter_later_eq_nil (h : OnOnePath c (places owner above i (n :: ns)))
    (hn : c.isIn n.loc = true) : (walk above ns).filter (Found.isReached c) = [] := by
  rw [List.filter_eq_nil_iff, ← map_found_places owner above (i + 1) ns]
  intro f hf hreached
  obtain ⟨q, hq, rfl⟩ := List.mem_map.mp hf
  have hin : c.isIn q.node.loc = true := (Bool.and_eq_true_iff.mp hreached).2
  obtain ⟨j, b, hj, haddress⟩ := exists_address_of_mem_places hq
  rw [places] at h
  have hcomparable := h.comparable ⟨owner, i, n, ns, above⟩ (List.mem_cons_self ..) q
    (List.mem_cons_of_mem _ (List.mem_append_right _ hq)) hn hin
  -- the two addresses part behind the owner
  have hfirst : Place.address ⟨owner, i, n, ns, above⟩ = owner ++ [i] := rfl
  rw [hfirst, haddress, List.prefix_append_right_inj, List.prefix_append_right_inj,
    List.cons_prefix_cons, List.cons_prefix_cons] at hcomparable
  omega

/-- Below a node that is not around the cursor nothing is reached: the node has no location,
or the cursor would be in it. -/
theorem OnOnePath.filter_below_eq_nil (h : OnOnePath c (places owner above i (n :: ns)))
    (hn : c.isIn n.loc = false) :
    (walk (n :: above) n.children).filter (Found.isReached c) = [] := by
  rw [List.filter_eq_nil_iff, ← map_found_places (owner ++ [i]) (n :: above) 0 n.children]
  intro f hf hreached
  have habove : n ∈ f.ancestors := by
    rw [map_found_places] at hf
    exact mem_ancestors_of_mem_walk hf n (List.mem_cons_self ..)
  obtain ⟨q, hq, rfl⟩ := List.mem_map.mp hf
  obtain ⟨hreachable, hin⟩ := Bool.and_eq_true_iff.mp hreached
  rw [places] at h
  have hup := h.up q (List.mem_cons_of_mem _ (List.mem_append_left _ hq)) hin n habove
    (List.all_eq_true.mp hreachable n habove)
  exact absurd hup (Bool.eq_false_iff.mp hn)

/-- **A lookup adds what is reached.**  From a chain of located nodes on, it extends the chain
by the nodes around the cursor that have no gap above them. -/
theorem OnOnePath.lineage_lookupFrom {start : Option Found}
    (hstart : ∀ a ∈ Found.chain start, a.isLocated = true)
    (h : OnOnePath c (places owner (Found.chain start) i ns)) :
    lineage (Found.chain (lookupFrom c start ns)) =
      lineage (Found.chain start) ++
        (walk (Found.chain start) ns).filter (Found.isReached c) := by
  fun_induction lookupFrom c start ns generalizing owner i with
  | case1 start => rw [walk_nil, List.filter_nil, List.append_nil]
  | case2 start n ns hin ih =>
    have hlocated : n.isLocated = true := by
      obtain ⟨l, hl, -⟩ := Cursor.exists_of_isIn hin
      rw [Node.isLocated, hl]
      rfl
    have hreached : Found.isReached c ⟨n, Found.chain start⟩ = true :=
      Bool.and_eq_true_iff.mpr ⟨List.all_eq_true.mpr hstart, hin⟩
    have hlater := h.filter_later_eq_nil hin
    rw [places] at h
    have hbelow := h.mono fun q hq => List.mem_cons_of_mem _ (List.mem_append_left _ hq)
    rw [ih (List.forall_mem_cons.mpr ⟨hlocated, hstart⟩) hbelow, walk_cons,
      List.filter_cons_of_pos hreached, List.filter_append, hlater, List.append_nil]
    show (lineage (Found.chain start) ++ [⟨n, Found.chain start⟩]) ++ _ = _
    rw [List.append_assoc]
    rfl
  | case3 start n ns hout ih =>
    have hn : c.isIn n.loc = false := Bool.eq_false_iff.mpr hout
    have hreached : ¬Found.isReached c ⟨n, Found.chain start⟩ = true := fun h =>
      hout (Bool.and_eq_true_iff.mp h).2
    have hbelow := h.filter_below_eq_nil hn
    rw [places] at h
    have hlater := h.mono fun q hq => List.mem_cons_of_mem _ (List.mem_append_right _ hq)
    rw [ih hstart hlater, walk_cons, List.filter_cons_of_neg hreached, List.filter_append, hbelow,
      List.nil_append]

end Lookup

/-- **A lookup finds the nodes around the cursor down to the first gap.** -/
theorem filter_containing_eq_lineage {k : Coordinate} (p : Point) {s e : Bool}
    (hends : ¬(s = true ∧ e = true)) {ns : List Node} (hns : NestedWhereLocated k ns) :
    (containing (k.cursor p s e) ns).filter Found.isReachable =
      lineage (Found.chain (lookup (k.cursor p s e) ns)) := by
  have hpath : OnOnePath (k.cursor p s e) (places [] (Found.chain none) 0 ns) :=
    hns.onOnePath hends
  have hstart : ∀ a ∈ Found.chain none, a.isLocated = true := List.forall_mem_nil _
  rw [lookup, hpath.lineage_lookupFrom hstart, containing, findAll_is_none_none, List.filter_filter]
  rfl

/-- **A lookup finds the innermost node around a cursor exactly when no node without a location
stands above one around it.**  What it finds in any case are the nodes around the cursor above
which all nodes have locations: from the outermost on, they are the chain of the node that the
lookup finds, and there are none when it finds none. -/
theorem findsInnermost_iff_located_above {ns : List Node} (hns : NestedWhereLocated .offset ns)
    (o : Int64) :
    (FindsInnermost (.atOffset o) ns ↔
      ∀ f ∈ containing (.atOffset o) ns, ∀ a ∈ f.ancestors, a.isLocated = true) ∧
    (containing (.atOffset o) ns).filter Found.isReachable =
      lineage (Found.chain (lookup (.atOffset o) ns)) := by
  have hlineage : (containing (.atOffset o) ns).filter Found.isReachable =
      lineage (Found.chain (lookup (.atOffset o) ns)) :=
    filter_containing_eq_lineage (k := .offset) { offset := o } (s := false) (e := false)
      (by decide) hns
  refine ⟨⟨fun h f hf => ?_, fun hlocated => ?_⟩, hlineage⟩
  · -- a node around the cursor is one of those that the lookup finds
    have hmem : f ∈ lineage (Found.chain (lookup (.atOffset o) ns)) := by
      cases hlookup : lookup (.atOffset o) ns with
      | none =>
        rw [h.none hlookup] at hf
        cases hf
      | some g => exact (h.innermost g hlookup).2 f hf
    rw [← hlineage] at hmem
    exact List.all_eq_true.mp (List.mem_filter.mp hmem).2
  · have hall : (containing (.atOffset o) ns).filter Found.isReachable =
        containing (.atOffset o) ns :=
      List.filter_eq_self.mpr fun f hf => List.all_eq_true.mpr (hlocated f hf)
    rw [hall] at hlineage
    constructor
    · intro hnone
      rw [hlineage, hnone]
      rfl
    · intro f hsome
      rw [hlineage, hsome]
      exact ⟨List.mem_append_right _ (List.mem_singleton_self _), fun g hg => hg⟩

/-! ### A gap -/

namespace Gap

/-- A text from one offset to another. -/
def text (content : String) (start stop : Int64) : Node :=
  .text content (some ⟨{ offset := start }, { offset := stop }⟩)

/-- A group from one offset to another. -/
def group (content : List Node) (start stop : Int64) : Node :=
  .enclosed .group (some content) (some ⟨{ offset := start }, { offset := stop }⟩)

/-- The definition of a command by a body, which has no location itself. -/
def definition : Node :=
  .defCommand "def" "\\x" (some [group [text "abc" 7 10] 6 11]) none

/-- A definition and a group behind it. -/
def forest : List Node := [definition, group [text "yz" 13 15] 12 16]

/-- The addresses of the forest. -/
theorem addresses_forest : addresses forest = [[0], [0, 0], [0, 0, 0], [1], [1, 0]] := by
  simp [addresses, addressesFrom, forest, definition, group, text, Node.children]

/-- What a search reports in the forest. -/
theorem findAll_forest : findAll (.is none none) forest =
    [⟨definition, []⟩, ⟨group [text "abc" 7 10] 6 11, [definition]⟩,
      ⟨text "abc" 7 10, [group [text "abc" 7 10] 6 11, definition]⟩,
      ⟨group [text "yz" 13 15] 12 16, []⟩,
      ⟨text "yz" 13 15, [group [text "yz" 13 15] 12 16]⟩] := by
  rw [findAll_is_none_none]
  simp [forest, definition, group, text, Node.children]

theorem nestedWhereLocated_forest : NestedWhereLocated .offset forest where
  inside := by
    rw [findAll_forest]
    decide
  apart := by
    rw [addresses_forest, findAll_forest]
    decide

/-- In the body of the definition the lookup finds nothing, although the cursor lies in the
body and in its text: the definition has no location. -/
theorem not_findsInnermost_in_definition :
    NestedWhereLocated .offset forest ∧ lookup (.atOffset 8) forest = none ∧
      (containing (.atOffset 8) forest).length = 2 ∧ ¬FindsInnermost (.atOffset 8) forest := by
  have hlookup : lookup (.atOffset 8) forest = none :=
    lookupFrom_of_forall (by decide) none
  have hlength : (containing (.atOffset 8) forest).length = 2 := by
    rw [containing, findAll_forest]
    decide
  refine ⟨nestedWhereLocated_forest, hlookup, hlength, fun h => ?_⟩
  rw [h.none hlookup] at hlength
  cases hlength

/-- In the group behind the definition the lookup finds the innermost node, since all nodes
above it have locations. -/
theorem findsInnermost_behind_definition :
    NestedWhereLocated .offset forest ∧
      (∀ f ∈ containing (.atOffset 14) forest, ∀ a ∈ f.ancestors, a.isLocated = true) ∧
      FindsInnermost (.atOffset 14) forest ∧
      (containing (.atOffset 14) forest).filter Found.isReachable =
        lineage (Found.chain (lookup (.atOffset 14) forest)) := by
  have hlocated : ∀ f ∈ containing (.atOffset 14) forest,
      ∀ a ∈ f.ancestors, a.isLocated = true := by
    rw [containing, findAll_forest]
    decide
  obtain ⟨hiff, hlineage⟩ := findsInnermost_iff_located_above nestedWhereLocated_forest 14
  exact ⟨nestedWhereLocated_forest, hlocated, hiff.mpr hlocated, hlineage⟩

end Gap

end TexTree

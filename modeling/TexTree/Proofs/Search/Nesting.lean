/-
TexTree/Proofs/Search/Nesting.lean

Looking up a place in a well-nested forest misses nothing.  A lookup takes the first
sibling around the cursor and never looks at another one; a search looks at every node.

    WellNested k ns      in the coordinate k siblings stand apart and children stand
                         inside their parents
    containing c ns      all nodes that the cursor lies in
    lineage              the nodes of a chain, each with the nodes above it

    containing c ns  =  lineage (chain of the node that lookup c ns finds)

Design.  A cursor that lies in a node lies in all nodes above it, and it lies in one of two
siblings only, unless both ends of a span count as inside.  So where a sibling is passed
over nothing below it is missed, and where one is taken nothing of the later ones is.
-/
import TexTree.Proofs.Search.Coordinates

namespace TexTree

/-! ### Spans around a cursor -/

section Spans

variable {k : Coordinate} {p : Point} {s e : Bool}

/-- A cursor lies only inside locations that are there. -/
theorem Cursor.exists_of_isIn {c : Cursor} {loc : Option Location} (h : c.isIn loc = true) :
    ∃ l, loc = some l ∧ c.isIn (some l) = true := by
  cases loc with
  | none => cases h
  | some l => exact ⟨l, rfl, h⟩

/-- A cursor lies inside a span when it is after the start and before the end, or at one of
them that counts as inside. -/
theorem Coordinate.isIn_cursor_iff {l : Location} :
    (k.cursor p s e).isIn (some l) = true ↔
      (k.key l.start < k.key p ∨ k.key l.start = k.key p ∧ s = true) ∧
        (k.key p < k.key l.stop ∨ k.key l.stop = k.key p ∧ e = true) := by
  rw [isIn_cursor, Cursor.within, Bool.and_eq_true, Bool.or_eq_true, Bool.or_eq_true,
    Bool.and_eq_true, Bool.and_eq_true, beq_iff_eq, beq_iff_eq, beq_iff_eq, beq_iff_eq,
    cmp_eq_lt_iff, cmp_eq_eq_iff, cmp_eq_gt_iff, cmp_eq_eq_iff]
  cases k <;> rfl

/-- The span of the first node lies within that of the second. -/
def Inside (k : Coordinate) (m n : Node) : Prop :=
  ∀ l ∈ m.loc, ∀ r ∈ n.loc, k.key r.start ≤ k.key l.start ∧ k.key l.stop ≤ k.key r.stop

/-- One of the two nodes ends before the other starts. -/
def Apart (k : Coordinate) (m n : Node) : Prop :=
  ∀ l ∈ m.loc, ∀ r ∈ n.loc, k.key l.stop ≤ k.key r.start ∨ k.key r.stop ≤ k.key l.start

instance (k : Coordinate) (m n : Node) : Decidable (Inside k m n) :=
  inferInstanceAs (Decidable (∀ l ∈ m.loc, ∀ r ∈ n.loc, _ ∧ _))

instance (k : Coordinate) (m n : Node) : Decidable (Apart k m n) :=
  inferInstanceAs (Decidable (∀ l ∈ m.loc, ∀ r ∈ n.loc, _ ∨ _))

/-- A cursor in a node is in each node that has a location around it. -/
theorem Inside.isIn {m n : Node} (h : Inside k m n) (hn : n.loc.isSome)
    (hm : (k.cursor p s e).isIn m.loc = true) :
    (k.cursor p s e).isIn n.loc = true := by
  obtain ⟨r, hr⟩ := Option.isSome_iff_exists.mp hn
  obtain ⟨l, hl, hm⟩ := Cursor.exists_of_isIn hm
  obtain ⟨hstart, hstop⟩ := h l hl r hr
  obtain ⟨hafter, hbefore⟩ := Coordinate.isIn_cursor_iff.mp hm
  rw [hr, Coordinate.isIn_cursor_iff]
  constructor
  · rcases hstart.lt_or_eq with hlt | heq
    · exact .inl (hlt.trans_le (hafter.elim le_of_lt fun h => h.1.le))
    · rw [heq]
      exact hafter
  · rcases hstop.lt_or_eq with hlt | heq
    · exact .inl ((hbefore.elim le_of_lt fun h => h.1.ge).trans_lt hlt)
    · rw [← heq]
      exact hbefore

/-- A span around the cursor ends before another one starts only if both ends count. -/
theorem ends_of_stop_le_start {l r : Location} (h : k.key l.stop ≤ k.key r.start)
    (hl : (k.cursor p s e).isIn (some l) = true)
    (hr : (k.cursor p s e).isIn (some r) = true) : s = true ∧ e = true := by
  obtain ⟨-, hstop⟩ := Coordinate.isIn_cursor_iff.mp hl
  obtain ⟨hstart, -⟩ := Coordinate.isIn_cursor_iff.mp hr
  rcases hstop with hstop | ⟨hstop, he⟩
  · -- the second span would start after the cursor
    have hafter : k.key p < k.key r.start := hstop.trans_le h
    rcases hstart with hstart | ⟨hstart, -⟩
    · exact absurd hstart hafter.asymm
    · exact absurd hstart hafter.ne'
  · rcases hstart with hstart | ⟨-, hs⟩
    · exact absurd (h.trans_lt hstart) (hstop ▸ lt_irrefl _)
    · exact ⟨hs, he⟩

/-- A cursor does not lie in two nodes that stand apart. -/
theorem Apart.not_isIn {m n : Node} (h : Apart k m n) (hends : ¬(s = true ∧ e = true))
    (hm : (k.cursor p s e).isIn m.loc = true) :
    (k.cursor p s e).isIn n.loc = false := by
  rw [Bool.eq_false_iff]
  intro hn
  obtain ⟨l, hl, hm⟩ := Cursor.exists_of_isIn hm
  obtain ⟨r, hr, hn⟩ := Cursor.exists_of_isIn hn
  rcases h l hl r hr with hle | hle
  · exact hends (ends_of_stop_le_start hle hm hn)
  · exact hends (ends_of_stop_le_start hle hn hm)

end Spans

/-! ### Well-nested forests -/

/-- The node is around the cursor. -/
def Found.isAround (c : Cursor) (f : Found) : Bool := c.isIn f.node.loc

/-- Every node of the forest has a location, siblings stand apart, and children stand inside
their parents. -/
inductive WellNested (k : Coordinate) : List Node → Prop
  | nil : WellNested k []
  | cons {n : Node} {ns : List Node} (located : n.loc.isSome) (apart : ∀ m ∈ ns, Apart k n m)
      (inside : ∀ m ∈ n.children, Inside k m n) (below : WellNested k n.children)
      (rest : WellNested k ns) : WellNested k (n :: ns)

/-- A cursor outside a node is outside its children. -/
theorem not_isIn_children {k : Coordinate} {n : Node} (located : n.loc.isSome)
    (inside : ∀ m ∈ n.children, Inside k m n) {p : Point} {s e : Bool}
    (hn : (k.cursor p s e).isIn n.loc = false) :
    ∀ m ∈ n.children, (k.cursor p s e).isIn m.loc = false := by
  intro m hm
  rw [Bool.eq_false_iff] at hn ⊢
  intro hin
  exact hn ((inside m hm).isIn located hin)

/-- A cursor outside all nodes of a forest is outside everything below them. -/
theorem WellNested.filter_walk_eq_nil {k : Coordinate} {ns : List Node} (h : WellNested k ns) {p : Point}
    {s e : Bool} (hns : ∀ n ∈ ns, (k.cursor p s e).isIn n.loc = false) (above : List Node) :
    (walk above ns).filter (Found.isAround (k.cursor p s e)) = [] := by
  induction h generalizing above with
  | nil => rw [walk_nil, List.filter_nil]
  | @cons n ns located apart inside below rest ihc ihs =>
    have hn : (k.cursor p s e).isIn n.loc = false := hns n (List.mem_cons_self ..)
    have hout : ¬Found.isAround (k.cursor p s e) ⟨n, above⟩ = true := Bool.eq_false_iff.mp hn
    rw [walk_cons, List.filter_cons_of_neg hout, List.filter_append,
      ihc (not_isIn_children located inside hn), ihs fun m hm => hns m (.tail n hm)]
    rfl

/-! ### The nodes around a cursor -/

/-- The nodes of a chain, each with the nodes above it.  The outermost comes first. -/
def lineage : List Node → List Found
  | [] => []
  | n :: above => lineage above ++ [⟨n, above⟩]

theorem map_node_lineage (chain : List Node) : (lineage chain).map Found.node = chain.reverse := by
  induction chain with
  | nil => rfl
  | cons n above ih => rw [lineage, List.map_append, ih, List.reverse_cons, List.map_singleton]

theorem depth_lt_of_mem_lineage {chain : List Node} {f : Found} (h : f ∈ lineage chain) :
    f.depth < chain.length := by
  induction chain with
  | nil => cases h
  | cons n above ih =>
    rw [lineage, List.mem_append, List.mem_singleton] at h
    rcases h with h | rfl
    · exact (ih h).trans (Nat.lt_succ_self _)
    · exact Nat.lt_succ_self _

/-- The end of a lineage is the only one at its depth. -/
theorem filter_depth_lineage (f : Found) :
    (lineage (f.node :: f.ancestors)).filter (fun g => f.depth ≤ g.depth) = [f] := by
  have habove : (lineage f.ancestors).filter (fun g => decide (f.depth ≤ g.depth)) = [] := by
    rw [List.filter_eq_nil_iff]
    intro g hg
    rw [decide_eq_true_iff, Nat.not_le]
    exact depth_lt_of_mem_lineage hg
  rw [lineage, List.filter_append, habove, List.nil_append]
  exact List.filter_cons_of_pos (decide_eq_true (Nat.le_refl _))

/-- The nodes that a search reports and that the cursor lies in. -/
def containing (c : Cursor) (ns : List Node) : List Found :=
  (findAll (.is none none) ns).filter (Found.isAround c)

/-- What a lookup adds to the chain that it starts from are the nodes around the cursor. -/
theorem lineage_lookupFrom {k : Coordinate} (p : Point) {s e : Bool}
    (hends : ¬(s = true ∧ e = true)) (start : Option Found) {ns : List Node}
    (hns : WellNested k ns) :
    lineage (Found.chain (lookupFrom (k.cursor p s e) start ns)) =
      lineage (Found.chain start) ++
        (walk (Found.chain start) ns).filter (Found.isAround (k.cursor p s e)) := by
  induction hns generalizing start with
  | nil => rw [lookupFrom_nil, walk_nil, List.filter_nil, List.append_nil]
  | @cons n ns located apart inside below rest ihc ihs =>
    cases hin : (k.cursor p s e).isIn n.loc with
    | true =>
      -- the siblings after `n` stand apart from it, so that nothing below them is missed
      have hn : Found.isAround (k.cursor p s e) ⟨n, Found.chain start⟩ = true := hin
      have hlater : (walk (Found.chain start) ns).filter (Found.isAround (k.cursor p s e)) = [] :=
        rest.filter_walk_eq_nil (fun m hm => (apart m hm).not_isIn hends hin) _
      rw [lookupFrom_cons_of_isIn hin, ihc, walk_cons, List.filter_cons_of_pos hn,
        List.filter_append, hlater, List.append_nil]
      show (lineage (Found.chain start) ++ [⟨n, Found.chain start⟩]) ++ _ = _
      rw [List.append_assoc]
      rfl
    | false =>
      have hn : ¬Found.isAround (k.cursor p s e) ⟨n, Found.chain start⟩ = true :=
        Bool.eq_false_iff.mp hin
      have hbelow : (walk (n :: Found.chain start) n.children).filter
          (Found.isAround (k.cursor p s e)) = [] :=
        below.filter_walk_eq_nil (not_isIn_children located inside hin) _
      rw [lookupFrom_cons_of_not hin, ihs, walk_cons, List.filter_cons_of_neg hn,
        List.filter_append, hbelow, List.nil_append]

/-- **The nodes around a cursor are the lineage of the node that a lookup finds.** -/
theorem containing_eq_lineage {k : Coordinate} (p : Point) {s e : Bool}
    (hends : ¬(s = true ∧ e = true)) {ns : List Node} (hns : WellNested k ns) :
    containing (k.cursor p s e) ns =
      lineage (Found.chain (lookup (k.cursor p s e) ns)) := by
  rw [lookup, lineage_lookupFrom p hends none hns, containing, findAll_is_none_none]
  rfl

/-- **A lookup in a well-nested forest finds what a search through all nodes finds.**  The
nodes around the cursor are, from the outermost on, the chain of the node that the lookup
finds, and there are none when it finds none.  The node that it finds, with the nodes above
it, is the only deepest one among them. -/
theorem lookup_agrees_with_search (k : Coordinate) (p : Point) {s e : Bool}
    (hends : ¬(s = true ∧ e = true)) {ns : List Node} (hns : WellNested k ns) :
    (containing (k.cursor p s e) ns).map Found.node =
      (Found.chain (lookup (k.cursor p s e) ns)).reverse ∧
    (containing (k.cursor p s e) ns = [] ↔ lookup (k.cursor p s e) ns = none) ∧
    ∀ f, lookup (k.cursor p s e) ns = some f →
      (containing (k.cursor p s e) ns).filter (fun g => f.depth ≤ g.depth) = [f] := by
  rw [containing_eq_lineage p hends hns]
  refine ⟨map_node_lineage _, ?_, fun f hf => ?_⟩
  · cases lookup (k.cursor p s e) ns with
    | none => exact iff_of_true rfl rfl
    | some f => simp [Found.chain, lineage]
  · rw [hf]
    exact filter_depth_lineage f

/-- The cursor where the argument of an environment ends and its content starts.  The start
of a span counts as inside, and the content is listed before the argument. -/
theorem lookup_where_content_starts :
    let text := Node.text "b" (some ⟨{ offset := 8 }, { offset := 20 }⟩)
    let inner := Node.text "a" (some ⟨{ offset := 4 }, { offset := 7 }⟩)
    let argument := Node.enclosed .group (some [inner]) (some ⟨{ offset := 3 }, { offset := 8 }⟩)
    let outer := Node.environment .plain "x" (some [argument]) (some [text])
      (some ⟨{ offset := 0 }, { offset := 30 }⟩)
    let ns := [outer]
    let c := Coordinate.offset.cursor { offset := 8 } true false
    WellNested .offset ns ∧ lookup c ns = some ⟨text, [outer]⟩ ∧
      (containing c ns).map Found.node = (Found.chain (lookup c ns)).reverse ∧
      (containing c ns = [] ↔ lookup c ns = none) ∧
      ∀ f, lookup c ns = some f → (containing c ns).filter (fun g => f.depth ≤ g.depth) = [f] := by
  intro text inner argument outer ns c
  have hns : WellNested .offset ns := by
    have hargument : WellNested .offset argument.children :=
      .cons rfl (by decide) (by decide) .nil .nil
    have hchildren : WellNested .offset [text, argument] :=
      .cons rfl (by decide) (by decide) .nil (.cons rfl (by decide) (by decide) hargument .nil)
    exact .cons rfl (by decide) (by decide) hchildren .nil
  have hlookup : lookup c ns = some ⟨text, [outer]⟩ := by
    rw [lookup, lookupFrom_cons_of_isIn (by decide)]
    show lookupFrom c (some ⟨outer, []⟩) [text, argument] = _
    rw [lookupFrom_cons_of_isIn (by decide)]
    exact lookupFrom_nil c _
  exact ⟨hns, hlookup, lookup_agrees_with_search .offset { offset := 8 } (by decide) hns⟩

end TexTree

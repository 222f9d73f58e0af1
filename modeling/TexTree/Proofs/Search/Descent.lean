/-
TexTree/Proofs/Search/Descent.lean

The path of a lookup.  From each list of siblings the first one around the cursor is taken,
and the path goes on among its children until none of them is around the cursor.

    Descends c ns path      the nodes of path are the ones taken, from ns on down

    chain (lookupFrom c start ns)  =  path.reverse ++ chain start

Nothing is assumed of the locations: spans may overlap, and they may be missing.  There is
one path for each forest, whatever the lookup starts from, and a lookup that starts from a
node of the path ends where the path ends (`Descends.lookupFrom_inside`).

Design.  One step of a lookup is said once, in `lookupFrom_of_find?`: all the siblings that
are passed over on the way to the one that is taken.  The laws of whole lookups follow by
induction on the path, with no recursion through the tree in them.
-/
import TexTree.Search.Lookup

namespace TexTree

/-! ### Chains of found nodes -/

namespace Found

/-- A found node with further nodes above those that are above it. -/
def onto (above : List Node) (f : Found) : Found := ⟨f.node, f.ancestors ++ above⟩

/-- A chain tells which node has been found. -/
theorem chain_injective {f g : Option Found} (h : chain f = chain g) : f = g := by
  cases f with
  | none =>
    cases g with
    | none => rfl
    | some g => cases h
  | some f =>
    cases g with
    | none => cases h
    | some g =>
      obtain ⟨n, above⟩ := f
      obtain ⟨m, higher⟩ := g
      obtain ⟨rfl, rfl⟩ := List.cons.inj h
      rfl

/-- Further nodes above a found node stand at the end of its chain. -/
theorem chain_onto (f : Found) (above : List Node) :
    chain (some (f.onto above)) = chain (some f) ++ above := rfl

end Found

/-! ### Paths -/

/-- The nodes that a lookup takes in a forest: the first one around the cursor, and then the
nodes that it takes among the children of that one. -/
inductive Descends (c : Cursor) : List Node → List Node → Prop
  | stop {ns : List Node} (h : ∀ n ∈ ns, c.isIn n.loc = false) : Descends c ns []
  | step {ns : List Node} {n : Node} {path : List Node}
      (first : ns.find? (fun m => c.isIn m.loc) = some n)
      (rest : Descends c n.children path) : Descends c ns (n :: path)

/-- **One step of a lookup.**  It goes on among the children of the first node around the
cursor. -/
theorem lookupFrom_of_find? {c : Cursor} {ns : List Node} {n : Node}
    (h : ns.find? (fun m => c.isIn m.loc) = some n) (start : Option Found) :
    lookupFrom c start ns = lookupFrom c (some ⟨n, Found.chain start⟩) n.children := by
  induction ns with
  | nil => cases h
  | cons m ns ih =>
    cases hm : c.isIn m.loc with
    | true =>
      rw [List.find?_cons, hm] at h
      obtain ⟨rfl⟩ := h
      exact lookupFrom_cons_of_isIn hm start ns
    | false =>
      rw [List.find?_cons, hm] at h
      rw [lookupFrom_cons_of_not hm]
      exact ih h

namespace Descends

variable {c : Cursor} {ns path : List Node}

/-- The lookup from a forest has a path when the lookups below its nodes have. -/
theorem exists_of_children (h : ∀ n ∈ ns, ∃ path, Descends c n.children path) :
    ∃ path, Descends c ns path := by
  cases hfirst : ns.find? (fun m => c.isIn m.loc) with
  | none =>
    refine ⟨[], .stop fun n hn => ?_⟩
    exact Bool.eq_false_iff.mpr (List.find?_eq_none.mp hfirst n hn)
  | some n =>
    obtain ⟨path, hpath⟩ := h n (List.mem_of_find?_eq_some hfirst)
    exact ⟨n :: path, .step hfirst hpath⟩

/-- Every lookup has a path. -/
theorem exists_path (c : Cursor) (ns : List Node) : ∃ path, Descends c ns path := by
  have hbelow : ∀ n : Node, ∃ path, Descends c n.children path := by
    intro n
    induction n using Node.inductionOnChildren with
    | step n ih => exact exists_of_children ih
  exact exists_of_children fun n _ => hbelow n

/-- Where a path goes on it cannot stop. -/
theorem not_stop {n : Node} (first : ns.find? (fun m => c.isIn m.loc) = some n) :
    ¬∀ m ∈ ns, c.isIn m.loc = false := by
  intro hnone
  have hin := List.find?_some first
  have hout := hnone n (List.mem_of_find?_eq_some first)
  exact absurd hin (Bool.eq_false_iff.mp hout)

/-- **There is only one path.** -/
theorem unique {path' : List Node} (h : Descends c ns path) (h' : Descends c ns path') :
    path' = path := by
  induction h generalizing path' with
  | stop hnone =>
    cases h' with
    | stop _ => rfl
    | step first _ => exact absurd hnone (not_stop first)
  | step first rest ih =>
    cases h' with
    | stop hnone => exact absurd hnone (not_stop first)
    | step first' rest' =>
      obtain ⟨rfl⟩ := Option.some.inj (first.symm.trans first')
      rw [ih rest']

/-- **A lookup extends the chain that it starts from by its path.** -/
theorem chain_lookupFrom (h : Descends c ns path) (start : Option Found) :
    Found.chain (lookupFrom c start ns) = path.reverse ++ Found.chain start := by
  induction h generalizing start with
  | stop hnone => rw [lookupFrom_of_forall hnone, List.reverse_nil, List.nil_append]
  | step first rest ih =>
    rw [lookupFrom_of_find? first, ih, List.reverse_cons, List.append_assoc]
    rfl

/-- A lookup without a start shows what any lookup adds to its start. -/
theorem lookupFrom_eq (h : Descends c ns path) (start : Option Found) :
    lookupFrom c start ns = ((lookup c ns).map (Found.onto (Found.chain start))).or start := by
  have hplain : Found.chain (lookup c ns) = path.reverse := by
    rw [lookup, h.chain_lookupFrom none]
    exact List.append_nil _
  refine Found.chain_injective ((h.chain_lookupFrom start).trans ?_)
  rw [← hplain]
  cases lookup c ns with
  | none => rfl
  | some f => exact (f.chain_onto _).symm

/-- **A lookup can be resumed** from any node of its path, with the nodes above that it has
there. -/
theorem lookupFrom_inside {above below : List Node} {n : Node}
    (h : Descends c ns (above ++ n :: below)) (start : Option Found) :
    lookupFrom c (some ⟨n, above.reverse ++ Found.chain start⟩) n.children =
      lookupFrom c start ns := by
  induction above generalizing ns start with
  | nil =>
    cases h with
    | step first rest => exact (lookupFrom_of_find? first start).symm
  | cons m above ih =>
    cases h with
    | step first rest =>
      rw [lookupFrom_of_find? first start, ← ih rest, List.reverse_cons, List.append_assoc]
      rfl

/-- The node that a lookup finds is the last one of its path. -/
theorem lookupFrom_concat {above : List Node} {n : Node} (h : Descends c ns (above ++ [n]))
    (start : Option Found) :
    lookupFrom c start ns = some ⟨n, above.reverse ++ Found.chain start⟩ := by
  refine Found.chain_injective ((h.chain_lookupFrom start).trans ?_)
  rw [List.reverse_append]
  rfl

/-- A lookup from the node that a lookup has found on its path finds that node. -/
theorem lookupFrom_again (h : Descends c ns path) (hpath : path ≠ []) {start : Option Found}
    {f : Found} (hf : lookupFrom c start ns = some f) :
    lookupFrom c (some f) f.node.children = some f := by
  rw [← List.dropLast_concat_getLast hpath] at h
  obtain ⟨rfl⟩ := Option.some.inj ((h.lookupFrom_concat start).symm.trans hf)
  exact (h.lookupFrom_inside start).trans hf

end Descends

/-- **A lookup takes the first node around the cursor at every level, and can be resumed
anywhere on its path.**  There is one path, and it does not depend on the start.  The lookup
extends the chain of its start by the path, so that it is the lookup without a start put onto
that chain, or the start itself when that lookup finds nothing.  From each node of the path on
it ends at the same node, and from its own answer at that answer. -/
theorem lookupFrom_follows_path (c : Cursor) (start : Option Found) (ns : List Node) :
    ∃ path, Descends c ns path ∧ (∀ path', Descends c ns path' → path' = path) ∧
      Found.chain (lookupFrom c start ns) = path.reverse ++ Found.chain start ∧
      lookupFrom c start ns = ((lookup c ns).map (Found.onto (Found.chain start))).or start ∧
      (∀ above n below, path = above ++ n :: below →
        lookupFrom c (some ⟨n, above.reverse ++ Found.chain start⟩) n.children =
          lookupFrom c start ns) ∧
      (path ≠ [] → ∀ f, lookupFrom c start ns = some f →
        lookupFrom c (some f) f.node.children = some f) := by
  obtain ⟨path, hpath⟩ := Descends.exists_path c ns
  refine ⟨path, hpath, fun path' hpath' => hpath.unique hpath', hpath.chain_lookupFrom start,
    hpath.lookupFrom_eq start, ?_, fun hne f hf => hpath.lookupFrom_again hne hf⟩
  rintro above n below rfl
  exact hpath.lookupFrom_inside start

end TexTree

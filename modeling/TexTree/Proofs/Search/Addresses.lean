/-
TexTree/Proofs/Search/Addresses.lean

A search through a forest finds every address of it once, in order.

An address is a list of numbers: the first one selects a node of the forest, each
further one a node among those that the fields of the node before hold.

    n.stored            the nodes in the fields of a node
    nodeAt? ns a        the node at an address, if there is one
    addresses ns        all addresses of a forest

The search visits the nodes at `addresses ns` one after the other.  These are the
addresses where there is a node, and they grow in the lexicographic order.

Design.  `StandsAt` says of one visited node where it stands, by the recursion of the
walk.  What the walk hands on is the chain of nodes above; what has to be said about it
at an address (`outerAddresses`) then follows by induction over `StandsAt`, with no
walk in it.
-/
import Mathlib.Data.List.Forall2
import Mathlib.Data.List.Infix
import TexTree.Proofs.Codec.Fields
import TexTree.Search.Walk

namespace TexTree

open Node (sizeList sizeList_children_lt sizeList_tail_lt)

/-! ### The nodes in the fields of a node -/

namespace Node

/-- What a single argument is enclosed in, by the kind of the node that holds it. -/
def argumentEnclosure : Kind → Enclosure
  | .listing => .optional
  | _ => .group

/-- The nodes that the fields of a node hold: its content, then its arguments, then its
single argument. -/
def stored (n : Node) : List Node :=
  n.draft.content.getD [] ++ n.draft.args.getD [] ++
    (n.draft.argument.map (Argument.toNode (argumentEnclosure n.kind))).toList

/-- The children of a node are all that its fields hold. -/
theorem children_eq_stored (n : Node) : n.children = n.stored := by
  cases n <;> simp [children, stored, draft, kind, argumentEnclosure]

end Node

/-! ### Addresses -/

/-- The node at an address of a forest. -/
def nodeAt? : List Node → List Nat → Option Node
  | _, [] => none
  | ns, [i] => ns[i]?
  | ns, i :: j :: a => ns[i]?.bind fun n => nodeAt? n.stored (j :: a)

/-- The proper prefixes of an address that are addresses themselves, the longest first. -/
def outerAddresses (a : List Nat) : List (List Nat) := a.dropLast.inits.tail.reverse

/-- The addresses of a forest whose first node has the number `i`. -/
def addressesFrom (i : Nat) : List Node → List (List Nat)
  | [] => []
  | n :: ns => [i] :: ((addressesFrom 0 n.children).map (i :: ·) ++ addressesFrom (i + 1) ns)
termination_by ns => sizeList ns
decreasing_by
  · exact sizeList_children_lt n ns
  · exact sizeList_tail_lt n ns

/-- The addresses of a forest, in the order of a search. -/
def addresses (ns : List Node) : List (List Nat) := addressesFrom 0 ns

theorem nodeAt?_cons (ns : List Node) (i : Nat) {a : List Nat} (h : a ≠ []) :
    nodeAt? ns (i :: a) = ns[i]?.bind fun n => nodeAt? n.stored a := by
  cases a with
  | nil => exact absurd rfl h
  | cons j a => rfl

theorem nodeAt?_cons_succ (n : Node) (ns : List Node) (i : Nat) (a : List Nat) :
    nodeAt? (n :: ns) ((i + 1) :: a) = nodeAt? ns (i :: a) := by
  cases a <;> rfl

/-- Below the first node of a forest. -/
theorem nodeAt?_cons_zero (n : Node) (ns : List Node) {a : List Nat} (h : a ≠ []) :
    nodeAt? (n :: ns) (0 :: a) = nodeAt? n.children a := by
  rw [nodeAt?_cons _ _ h, n.children_eq_stored]
  rfl

theorem outerAddresses_cons (i : Nat) {a : List Nat} (h : a ≠ []) :
    outerAddresses (i :: a) = (outerAddresses a).map (i :: ·) ++ [[i]] := by
  have hinits : ∀ b : List Nat, b.inits = [] :: b.inits.tail := by
    intro b
    cases b with
    | nil => rfl
    | cons j b => rw [List.inits_cons]; rfl
  rw [outerAddresses, List.dropLast_cons_of_ne_nil h, List.inits_cons, List.tail_cons,
    hinits a.dropLast, List.map_cons, List.reverse_cons, outerAddresses, List.map_reverse]

theorem ne_nil_of_mem_outerAddresses {a b : List Nat} (h : b ∈ outerAddresses a) : b ≠ [] := by
  induction a generalizing b with
  | nil => cases h
  | cons i a ih =>
    by_cases ha : a = []
    · subst ha
      cases h
    · rw [outerAddresses_cons i ha, List.mem_append, List.mem_map, List.mem_singleton] at h
      rcases h with ⟨c, -, rfl⟩ | rfl <;> simp

/-! ### Where there are nodes -/

/-- The addresses of a forest are those of its nodes. -/
theorem mem_addressesFrom {i : Nat} {ns : List Node} {a : List Nat} :
    a ∈ addressesFrom i ns ↔ ∃ j b, a = (i + j) :: b ∧ (nodeAt? ns (j :: b)).isSome := by
  fun_induction addressesFrom i ns generalizing a with
  | case1 i =>
    constructor
    · intro h
      cases h
    · rintro ⟨j, - | ⟨k, b⟩, -, h⟩ <;> cases h
  | case2 i n ns ihc ihs =>
    rw [List.mem_cons, List.mem_append, List.mem_map]
    -- the node itself, the nodes below it, and the nodes of the rest of the forest
    constructor
    · rintro (rfl | ⟨a, ha, rfl⟩ | ha)
      · exact ⟨0, [], rfl, rfl⟩
      · obtain ⟨j, b, rfl, h⟩ := ihc.mp ha
        refine ⟨0, (0 + j) :: b, rfl, ?_⟩
        rw [nodeAt?_cons_zero _ _ (List.cons_ne_nil _ _), Nat.zero_add]
        exact h
      · obtain ⟨j, b, rfl, h⟩ := ihs.mp ha
        refine ⟨j + 1, b, by rw [Nat.add_right_comm]; rfl, ?_⟩
        rw [nodeAt?_cons_succ]
        exact h
    · rintro ⟨j, b, rfl, h⟩
      cases j with
      | zero =>
        cases b with
        | nil => exact .inl rfl
        | cons k b =>
          rw [nodeAt?_cons_zero _ _ (List.cons_ne_nil _ _)] at h
          exact .inr (.inl ⟨k :: b, ihc.mpr ⟨k, b, by rw [Nat.zero_add], h⟩, rfl⟩)
      | succ j =>
        rw [nodeAt?_cons_succ] at h
        exact .inr (.inr (ihs.mpr ⟨j, b, by rw [Nat.add_right_comm]; rfl, h⟩))

theorem mem_addresses {ns : List Node} {a : List Nat} :
    a ∈ addresses ns ↔ (nodeAt? ns a).isSome := by
  rw [addresses, mem_addressesFrom]
  constructor
  · rintro ⟨j, b, rfl, h⟩
    rw [Nat.zero_add]
    exact h
  · intro h
    cases a with
    | nil => cases h
    | cons j b => exact ⟨j, b, by rw [Nat.zero_add], h⟩

/-- **The addresses of a forest grow.** -/
theorem pairwise_addressesFrom (i : Nat) (ns : List Node) :
    (addressesFrom i ns).Pairwise (· < ·) := by
  fun_induction addressesFrom i ns with
  | case1 i => exact .nil
  | case2 i n ns ihc ihs =>
    rw [List.pairwise_cons, List.pairwise_append, List.pairwise_map]
    -- the addresses below the node begin with its number, those of the others with greater ones
    have hlater : ∀ a ∈ addressesFrom (i + 1) ns, ∃ j b, i < j ∧ a = j :: b := by
      intro a ha
      obtain ⟨j, b, rfl, -⟩ := mem_addressesFrom.mp ha
      exact ⟨i + 1 + j, b, by omega, rfl⟩
    refine ⟨fun a ha => ?_, ihc.imp fun h => List.cons_lt_cons_self.mpr h, ihs, fun a ha b hb => ?_⟩
    · rcases List.mem_append.mp ha with ha | ha
      · obtain ⟨b, hb, rfl⟩ := List.mem_map.mp ha
        obtain ⟨j, c, rfl, -⟩ := mem_addressesFrom.mp hb
        exact List.cons_lt_cons_self.mpr (List.nil_lt_cons _ _)
      · obtain ⟨j, b, hj, rfl⟩ := hlater a ha
        exact List.cons_lt_cons_iff.mpr (.inl hj)
    · obtain ⟨c, -, rfl⟩ := List.mem_map.mp ha
      obtain ⟨j, d, hj, rfl⟩ := hlater b hb
      exact List.cons_lt_cons_iff.mpr (.inl hj)

/-! ### What a search visits -/

/-- The found node stands at the address in a forest that is below a chain of nodes. -/
inductive StandsAt : List Node → List Node → List Nat → Found → Prop
  | top {above ns : List Node} {i : Nat} {n : Node} (h : ns[i]? = some n) :
      StandsAt above ns [i] ⟨n, above⟩
  | inner {above ns : List Node} {i : Nat} {n : Node} {a : List Nat} {f : Found}
      (h : ns[i]? = some n) (hf : StandsAt (n :: above) n.children a f) :
      StandsAt above ns (i :: a) f

namespace StandsAt

variable {above ns : List Node} {a : List Nat} {f : Found}

theorem ne_nil (h : StandsAt above ns a f) : a ≠ [] := by
  cases h <;> exact List.cons_ne_nil _ _

/-- One more node in front moves the first number on. -/
theorem cons_succ (n : Node) {i : Nat} (h : StandsAt above ns (i :: a) f) :
    StandsAt above (n :: ns) ((i + 1) :: a) f := by
  cases h with
  | top h => exact .top h
  | inner h hf => exact .inner h hf

theorem nodeAt?_eq (h : StandsAt above ns a f) : nodeAt? ns a = some f.node := by
  induction h with
  | top h => exact h
  | @inner above ns i n a f h hf ih =>
    rw [nodeAt?_cons ns i hf.ne_nil, h, ← ih, n.children_eq_stored]
    rfl

/-- The nodes above are those at the outer addresses, and then the chain. -/
theorem ancestors_eq (h : StandsAt above ns a f) :
    f.ancestors.map some = (outerAddresses a).map (nodeAt? ns) ++ above.map some := by
  induction h with
  | top h => rfl
  | @inner above ns i n a f h hf ih =>
    -- addresses that begin with `i` are those of the children of `n`, but for `[i]` itself
    have hbelow : (outerAddresses a).map (nodeAt? ns ∘ (i :: ·)) =
        (outerAddresses a).map (nodeAt? n.children) := by
      refine List.map_congr_left fun b hb => ?_
      show nodeAt? ns (i :: b) = nodeAt? n.children b
      rw [nodeAt?_cons ns i (ne_nil_of_mem_outerAddresses hb), h, n.children_eq_stored]
      rfl
    have htop : nodeAt? ns [i] = some n := h
    rw [ih, outerAddresses_cons i hf.ne_nil, List.map_append, List.map_map, hbelow, List.map_cons,
      List.map_singleton, htop, List.append_assoc]
    rfl

theorem depth_eq (h : StandsAt above ns a f) : f.depth + 1 = a.length + above.length := by
  induction h with
  | @top above ns i n h =>
    show above.length + 1 = 1 + above.length
    exact Nat.add_comm _ _
  | inner h hf ih =>
    rw [ih, List.length_cons, List.length_cons]
    omega

end StandsAt

/-- A walk visits the addresses of the forest, one after the other. -/
theorem forall₂_standsAt_walk (above ns : List Node) (i : Nat) :
    List.Forall₂ (fun a f => ∃ j b, a = (i + j) :: b ∧ StandsAt above ns (j :: b) f)
      (addressesFrom i ns) (walk above ns) := by
  fun_induction walk above ns generalizing i with
  | case1 above =>
    rw [addressesFrom]
    exact .nil
  | case2 above n ns ihc ihs =>
    rw [addressesFrom]
    refine .cons ⟨0, [], rfl, .top rfl⟩ (List.rel_append ?_ ?_)
    · rw [List.forall₂_map_left_iff]
      refine (ihc 0).imp fun a f h => ?_
      obtain ⟨j, b, rfl, h⟩ := h
      rw [Nat.zero_add]
      exact ⟨0, j :: b, rfl, .inner rfl h⟩
    · refine (ihs (i + 1)).imp fun a f h => ?_
      obtain ⟨j, b, rfl, h⟩ := h
      exact ⟨j + 1, b, by rw [Nat.add_right_comm]; rfl, h.cons_succ n⟩

/-- A search without a condition is the walk. -/
theorem findAll_is_none_none (ns : List Node) : findAll (.is none none) ns = walk [] ns := by
  rw [findAll, Predicate.is_none_none, List.filter_true]

/-- The condition for nodes of a kind: they are of the kind, and the condition accepts them. -/
theorem Predicate.is_eq_true_iff {kind : Option Kind} {p : Option Predicate} {n : Node} :
    Predicate.is kind p n = true ↔ (∀ k ∈ kind, n.kind = k) ∧ ∀ q ∈ p, q n = true := by
  rw [is, Bool.and_eq_true, Option.all_eq_true, Option.all_eq_true]
  refine and_congr (forall₂_congr fun k _ => ?_) Iff.rfl
  rw [beq_iff_eq, eq_comm]

/-- **A search lists the addresses of the forest**, each once and in lexicographic order,
with the node that stands there and the nodes at the outer addresses above it.  A search for
nodes of a kind lists those among them that are of the kind and are accepted. -/
theorem findAll_lists_addresses (ns : List Node) :
    (addresses ns).Pairwise (· < ·) ∧
    (∀ a, a ∈ addresses ns ↔ (nodeAt? ns a).isSome) ∧
    List.Forall₂ (fun a (f : Found) => nodeAt? ns a = some f.node ∧
        f.ancestors.map some = (outerAddresses a).map (nodeAt? ns) ∧ f.depth = a.length - 1)
      (addresses ns) (findAll (.is none none) ns) ∧
    (∀ (kind : Option Kind) (p : Option Predicate), findAll (.is kind p) ns =
      (findAll (.is none none) ns).filter fun f =>
        (∀ k ∈ kind, f.node.kind = k) ∧ ∀ q ∈ p, q f.node = true) := by
  refine ⟨pairwise_addressesFrom 0 ns, fun a => mem_addresses, ?_, fun kind p => ?_⟩
  · rw [findAll_is_none_none]
    refine (forall₂_standsAt_walk [] ns 0).imp fun a f h => ?_
    obtain ⟨j, b, rfl, h⟩ := h
    rw [Nat.zero_add]
    refine ⟨h.nodeAt?_eq, ?_, ?_⟩
    · rw [h.ancestors_eq, List.map_nil, List.append_nil]
    · have hdepth := h.depth_eq
      rw [List.length_nil] at hdepth
      omega
  · -- a kind and a condition are asked of the same nodes in the same order
    rw [findAll_is_none_none, findAll]
    refine List.filter_congr fun f _ => ?_
    rw [Bool.eq_iff_iff, Predicate.is_eq_true_iff, decide_eq_true_iff]

end TexTree

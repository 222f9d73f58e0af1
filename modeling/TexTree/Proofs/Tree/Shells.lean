/-
TexTree/Proofs/Tree/Shells.lean

Changes at any depth of a forest.  A shell is a node with one of its lists of nodes
taken out, and `fill` puts a list in:

    f.fill ns                the shell f around the list ns
    Somewhere R ns ms        ms is ns with a run of siblings replaced, as R says,
                             in the forest itself or in a list at any depth

Every list that a node holds can be taken out (`exists_fill_eq_iff`), so a run of
siblings has no other places to stand in.

What is written of a node around one of its lists is a text around the source of the
list (`written_fill`); in the arguments of program listings the list is written without
the line break.

Design.  A list may be missing, and it may become missing or come into being by a change,
so shells are filled with lists that may be missing, and only the nodes in them count.
-/
import TexTree.Proofs.Codec.Fields
import TexTree.Source

namespace TexTree

/-! ### Shells -/

/-- A node with one of its lists of nodes taken out.  That of a single argument stands inside
the argument. -/
inductive Shell (τ : Type := String) where
  | command (name : τ) (loc : Option Location)
  | textCommand (argLoc loc : Option Location)
  | defCommand (name token : τ) (loc : Option Location)
  | environmentArgs (flavour : Flavour) (name : τ) (content : Option (List (Node τ)))
      (loc : Option Location)
  | environmentContent (flavour : Flavour) (name : τ) (args : Option (List (Node τ)))
      (loc : Option Location)
  | enclosed (enclosure : Enclosure) (loc : Option Location)
  | delimited (left right : τ) (loc : Option Location)
  | minted (name content : τ) (loc : Option Location)
  | listing (name content : τ) (argLoc loc : Option Location)

variable {α τ : Type}

namespace Shell

/-- The node with the list put in. -/
def fill (ns : Option (List (Node τ))) : Shell τ → Node τ
  | .command name loc => .command name ns loc
  | .textCommand argLoc loc => .textCommand (some ⟨ns, argLoc⟩) loc
  | .defCommand name token loc => .defCommand name token ns loc
  | .environmentArgs flavour name content loc => .environment flavour name ns content loc
  | .environmentContent flavour name args loc => .environment flavour name args ns loc
  | .enclosed enclosure loc => .enclosed enclosure ns loc
  | .delimited left right loc => .delimited left right ns loc
  | .minted name content loc => .minted name ns content loc
  | .listing name content argLoc loc => .listing name (some ⟨ns, argLoc⟩) content loc

end Shell

/-- Every list that a node holds can be taken out of it, and nothing else can. -/
theorem exists_fill_eq_iff {n : Node} {ns : List Node} :
    (∃ f : Shell, f.fill (some ns) = n) ↔ some ns ∈ n.draft.lists := by
  simp only [Draft.lists, List.mem_cons, List.not_mem_nil, or_false]
  constructor
  · rintro ⟨f, rfl⟩
    cases f <;> simp [Shell.fill, Node.draft]
  · intro h
    cases n with
    | command name args loc =>
      obtain rfl : some ns = args := by simpa [Node.draft] using h
      exact ⟨.command name loc, rfl⟩
    | textCommand arg loc =>
      rcases arg with - | ⟨inside, argLoc⟩
      · simp [Node.draft] at h
      · obtain rfl : some ns = inside := by simpa [Node.draft] using h
        exact ⟨.textCommand argLoc loc, rfl⟩
    | defCommand name token args loc =>
      obtain rfl : some ns = args := by simpa [Node.draft] using h
      exact ⟨.defCommand name token loc, rfl⟩
    | environment flavour name args content loc =>
      have h : some ns = args ∨ some ns = content := by simpa [Node.draft] using h
      rcases h with rfl | rfl
      · exact ⟨.environmentArgs flavour name content loc, rfl⟩
      · exact ⟨.environmentContent flavour name args loc, rfl⟩
    | enclosed enclosure content loc =>
      obtain rfl : some ns = content := by simpa [Node.draft] using h
      exact ⟨.enclosed enclosure loc, rfl⟩
    | delimited left right content loc =>
      obtain rfl : some ns = content := by simpa [Node.draft] using h
      exact ⟨.delimited left right loc, rfl⟩
    | minted name args content loc =>
      obtain rfl : some ns = args := by simpa [Node.draft] using h
      exact ⟨.minted name content loc, rfl⟩
    | listing name arg content loc =>
      rcases arg with - | ⟨inside, argLoc⟩
      · simp [Node.draft] at h
      · obtain rfl : some ns = inside := by simpa [Node.draft] using h
        exact ⟨.listing name content argLoc loc, rfl⟩
    | _ => simp [Node.draft] at h

/-! ### A change somewhere -/

/-- The second forest is the first with a run of siblings, at any depth, replaced by another
run as `R` says. -/
inductive Somewhere (R : List (Node τ) → List (Node τ) → Prop) :
    List (Node τ) → List (Node τ) → Prop
  | here (front back : List (Node τ)) {run run' : List (Node τ)} (h : R run run') :
      Somewhere R (front ++ run ++ back) (front ++ run' ++ back)
  | inside (front back : List (Node τ)) (f : Shell τ) {ns ms : Option (List (Node τ))}
      (h : Somewhere R (ns.getD []) (ms.getD [])) :
      Somewhere R (front ++ f.fill ns :: back) (front ++ f.fill ms :: back)

/-! ### The source around a list -/

variable [Script α τ]

open Script (spell markup)

namespace Shell

/-- The line break that the list in a shell is written with: that of the node, but none in the
arguments of program listings. -/
def lineBreak (b : List α) : Shell τ → List α
  | .minted .. | .listing .. => []
  | _ => b

/-- What is written of a node around the source of the list that has been taken out. -/
def wrap (b inside : List α) : Shell τ → List α
  | .command name _ => controlWord (spell name) ++ inside
  | .textCommand .. =>
    controlWord (markup "text".toList) ++ Enclosure.group.enclose b inside
  | .defCommand _ token _ => controlWord (markup "def".toList) ++ spell token ++ inside
  | .environmentArgs _ name content _ =>
    environmentSource b (spell name) inside (Node.writtenList b (content.getD []))
  | .environmentContent _ name args _ =>
    environmentSource b (spell name) (Node.writtenList b (args.getD [])) inside
  | .enclosed enclosure _ => enclosure.enclose b inside
  | .delimited left right _ =>
    controlWord (markup "left".toList) ++ spell left ++ inside ++
      controlWord (markup "right".toList) ++ spell right
  | .minted _ content _ =>
    beginning (markup "minted".toList) ++ inside ++ spell content ++
      ending (markup "minted".toList) ++ b
  | .listing _ content _ _ =>
    beginning (markup "lstlisting".toList) ++ Enclosure.optional.enclose [] inside ++
      spell content ++ ending (markup "lstlisting".toList)

end Shell

/-- **A node is written around its lists.** -/
theorem written_fill (b : List α) (f : Shell τ) (ns : Option (List (Node τ))) :
    (f.fill ns).written b = f.wrap b (Node.writtenList (f.lineBreak b) (ns.getD [])) := by
  cases f <;>
    simp [Shell.fill, Shell.wrap, Shell.lineBreak, Node.written, Node.writtenArgument]

/-- The list in a shell has no part in the space in front of the node. -/
theorem Shell.needsSpace_fill_left (f : Shell τ) (ns ms : Option (List (Node τ)))
    (x : Node τ) : x.needsSpace (f.fill ns) = x.needsSpace (f.fill ms) := by
  cases f <;> cases x <;> rfl

/-- Behind the node only the arguments of a command have a part, and only by their being
there. -/
theorem Shell.needsSpace_fill_right (f : Shell τ) {ns ms : Option (List (Node τ))}
    (hempty : (ns.getD []).isEmpty = (ms.getD []).isEmpty) (x : Node τ) :
    (f.fill ns).needsSpace x = (f.fill ms).needsSpace x := by
  cases f with
  | command => cases x <;> simp [Shell.fill, Node.needsSpace, Node.isBareCommand, hempty]
  | _ => cases x <;> rfl

end TexTree

/-
TexTree/Node.lean

The document tree.  A node is a piece of text, a symbol, or something that holds
other nodes in up to two lists (its content and its arguments) or in a single
argument.

    n.kind         which of the 25 kinds it is
    n.loc          where it stands in the source, if that is known
    n.children     its content, then its arguments, then its single argument

Design.  Kinds that differ only in how they are written share a constructor:
the three flavours of environment, the six enclosures, the four marks.  A list
of nodes may be missing, which is not the same as being empty; everything but
the exchange format treats the two alike.  A single argument is no node of its
own, only the inside of one (`Argument`): which enclosure it has is fixed by
the node that holds it.  The texts that a tree holds are strings unless another
type is given for them (`Node (List UInt8)`: bytes that need not be UTF-8).

`size` counts the nodes of a tree.  It decreases from a node to its children,
and by that every walk through a tree ends.
-/
import TexTree.Kind
import TexTree.Location

namespace TexTree

/-- The inside of a single argument: its nodes and where it stands. -/
structure Argument (α : Type) where
  content : Option (List α) := none
  loc : Option Location := none

/-- The flavours of environment: ordinary ones, display alignments, and the
alignments inside a formula. -/
inductive Flavour where
  | plain
  | align
  | aligned
  deriving DecidableEq, Inhabited

/-- What a list of nodes can be enclosed in. -/
inductive Enclosure where
  | group
  | optional
  | superscript
  | subscript
  | inlineMath
  | displayMath
  deriving DecidableEq, Inhabited

/-- Nodes that carry nothing. -/
inductive Mark where
  | parBreak
  | alignmentTab
  | tie
  | ignored
  deriving DecidableEq, Inhabited

/-- A node of the document tree, with texts of type `τ`. -/
inductive Node (τ : Type := String) where
  /-- A run of text. -/
  | text (content : τ) (loc : Option Location)
  /-- A symbol of a formula. -/
  | mathChar (content : τ) (loc : Option Location)
  /-- A command with its arguments. -/
  | command (name : τ) (args : Option (List (Node τ))) (loc : Option Location)
  /-- Text inside a formula. -/
  | textCommand (arg : Option (Argument (Node τ))) (loc : Option Location)
  /-- The definition of `token` as another name of `target`. -/
  | letCommand (name token target : τ) (loc : Option Location)
  /-- The definition of `token` by parameters and a body. -/
  | defCommand (name token : τ) (args : Option (List (Node τ))) (loc : Option Location)
  /-- An environment with arguments and content. -/
  | environment (flavour : Flavour) (name : τ) (args content : Option (List (Node τ)))
      (loc : Option Location)
  /-- An enclosed list of nodes. -/
  | enclosed (enclosure : Enclosure) (content : Option (List (Node τ))) (loc : Option Location)
  /-- Nodes between two delimiters that grow with them. -/
  | delimited (left right : τ) (content : Option (List (Node τ))) (loc : Option Location)
  /-- A node that carries nothing. -/
  | mark (mark : Mark) (loc : Option Location)
  /-- A parameter in a definition. -/
  | parameter (number : τ) (loc : Option Location)
  /-- Text between two delimiters that is not interpreted. -/
  | verb (name escape content : τ) (loc : Option Location)
  /-- An environment whose content is not interpreted. -/
  | verbatim (name content : τ) (loc : Option Location)
  /-- A program listing with arguments. -/
  | minted (name : τ) (args : Option (List (Node τ))) (content : τ) (loc : Option Location)
  /-- A program listing with a single optional argument. -/
  | listing (name : τ) (arg : Option (Argument (Node τ))) (content : τ)
      (loc : Option Location)
  deriving Inhabited

/-- The kind of an environment. -/
def Flavour.kind : Flavour → Kind
  | .plain => .environment
  | .align => .align
  | .aligned => .aligned

/-- The kind of an enclosed list of nodes. -/
def Enclosure.kind : Enclosure → Kind
  | .group => .group
  | .optional => .optional
  | .superscript => .superscript
  | .subscript => .subscript
  | .inlineMath => .inlineMath
  | .displayMath => .displayMath

/-- The kind of a mark. -/
def Mark.kind : Mark → Kind
  | .parBreak => .parBreak
  | .alignmentTab => .alignmentTab
  | .tie => .tie
  | .ignored => .ignored

/-- The argument as a node, in the enclosure `e`. -/
def Argument.toNode {τ : Type} (e : Enclosure) (a : Argument (Node τ)) : Node τ :=
  .enclosed e a.content a.loc

namespace Node

variable {τ : Type}

/-- The kind of a node. -/
def kind : Node τ → Kind
  | .text .. => .text
  | .mathChar .. => .mathChar
  | .command .. => .command
  | .textCommand .. => .textCommand
  | .letCommand .. => .letCommand
  | .defCommand .. => .defCommand
  | .environment f .. => f.kind
  | .enclosed e .. => e.kind
  | .delimited .. => .delimited
  | .mark m _ => m.kind
  | .parameter .. => .parameter
  | .verb .. => .verb
  | .verbatim .. => .verbatim
  | .minted .. => .minted
  | .listing .. => .listing

/-- Where a node stands in the source. -/
def loc : Node τ → Option Location
  | .text _ loc | .mathChar _ loc | .command _ _ loc | .textCommand _ loc
  | .letCommand _ _ _ loc | .defCommand _ _ _ loc | .environment _ _ _ _ loc
  | .enclosed _ _ loc | .delimited _ _ _ loc | .mark _ loc | .parameter _ loc
  | .verb _ _ _ loc | .verbatim _ _ loc | .minted _ _ _ loc | .listing _ _ _ loc => loc

/-- The name that a node carries, if its kind has names. -/
def name? : Node τ → Option τ
  | .command name _ _ | .letCommand name _ _ _ | .defCommand name _ _ _
  | .environment _ name _ _ _ | .verb name _ _ _ | .verbatim name _ _
  | .minted name _ _ _ | .listing name _ _ _ => some name
  | .text .. | .mathChar .. | .textCommand .. | .enclosed .. | .delimited .. | .mark ..
  | .parameter .. => none

/-- The name of a node that is written between a begin and an end. -/
def environmentName? : Node τ → Option τ
  | .environment _ name _ _ _ | .verbatim name _ _ | .minted name _ _ _
  | .listing name _ _ _ => some name
  | .text .. | .mathChar .. | .command .. | .textCommand .. | .letCommand .. | .defCommand ..
  | .enclosed .. | .delimited .. | .mark .. | .parameter .. | .verb .. => none

/-- The nodes directly below a node: its content, then its arguments, then its
single argument. -/
def children : Node τ → List (Node τ)
  | .command _ args _ | .defCommand _ _ args _ | .minted _ args _ _ => args.getD []
  | .enclosed _ content _ | .delimited _ _ content _ => content.getD []
  | .environment _ _ args content _ => content.getD [] ++ args.getD []
  | .textCommand arg _ => (arg.map (Argument.toNode .group)).toList
  | .listing _ arg _ _ => (arg.map (Argument.toNode .optional)).toList
  | .text .. | .mathChar .. | .letCommand .. | .mark .. | .parameter .. | .verb ..
  | .verbatim .. => []

/-! ### The number of nodes of a tree -/

mutual

/-- How many nodes a tree has. -/
def size : Node τ → Nat
  | .command _ args _ | .defCommand _ _ args _ | .minted _ args _ _ => sizeOption args + 1
  | .enclosed _ content _ | .delimited _ _ content _ => sizeOption content + 1
  | .environment _ _ args content _ => sizeOption content + sizeOption args + 1
  | .textCommand arg _ | .listing _ arg _ _ => sizeArgument arg + 1
  | .text .. | .mathChar .. | .letCommand .. | .mark .. | .parameter .. | .verb ..
  | .verbatim .. => 1

/-- How many nodes a list of trees has. -/
def sizeList : List (Node τ) → Nat
  | [] => 0
  | n :: ns => size n + sizeList ns

/-- How many nodes a list of trees has that may be missing. -/
def sizeOption : Option (List (Node τ)) → Nat
  | none => 0
  | some ns => sizeList ns

/-- How many nodes a single argument has that may be missing. -/
def sizeArgument : Option (Argument (Node τ)) → Nat
  | none => 0
  | some ⟨content, _⟩ => sizeOption content + 1

end

@[simp] theorem sizeOption_eq (ns : Option (List (Node τ))) :
    sizeOption ns = sizeList (ns.getD []) := by
  cases ns <;> simp [sizeOption, sizeList]

@[simp] theorem sizeList_append (ns ms : List (Node τ)) :
    sizeList (ns ++ ms) = sizeList ns + sizeList ms := by
  induction ns with
  | nil => simp [sizeList]
  | cons n ns ih => simp [sizeList, ih]; omega

/-- A tree is its root and its children. -/
theorem size_eq (n : Node τ) : n.size = sizeList n.children + 1 := by
  cases n with
  | textCommand arg loc => cases arg <;> simp [size, sizeArgument, children, sizeList, Argument.toNode]
  | listing name arg content loc =>
    cases arg <;> simp [size, sizeArgument, children, sizeList, Argument.toNode]
  | _ => simp [size, children, sizeList]

theorem sizeList_children_lt (n : Node τ) (ns : List (Node τ)) :
    sizeList n.children < sizeList (n :: ns) := by
  simp only [sizeList, size_eq]
  omega

theorem sizeList_tail_lt (n : Node τ) (ns : List (Node τ)) : sizeList ns < sizeList (n :: ns) := by
  simp only [sizeList, size_eq]
  omega

theorem size_le_of_mem {n : Node τ} {ns : List (Node τ)} (h : n ∈ ns) : n.size ≤ sizeList ns := by
  induction ns with
  | nil => contradiction
  | cons m ns ih =>
    rcases List.mem_cons.mp h with rfl | h
    · simp [sizeList]
    · have := ih h
      simp only [sizeList]
      omega

/-- A child is smaller than its parent. -/
theorem size_lt_of_mem_children {n m : Node τ} (h : m ∈ n.children) : m.size < n.size := by
  have := size_le_of_mem h
  rw [size_eq n]
  omega

/-- Tree induction: what passes from the children of a node to the node holds
of every node. -/
theorem inductionOnChildren {motive : Node τ → Prop}
    (step : ∀ n : Node τ, (∀ m ∈ n.children, motive m) → motive n) (n : Node τ) : motive n :=
  step n fun m _h => inductionOnChildren step m
termination_by n.size
decreasing_by exact size_lt_of_mem_children _h

end Node

end TexTree

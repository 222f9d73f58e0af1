/-
TexTree/Proofs/Codec/UnknownKind.lean

An error about an unknown kind points at the value that names it.  Its message

    node #1: unable to decode env node: node #0: unknown node kind "x"

can be followed in the text: item 1 of the outermost array is an object of kind env, one of its
lists of nodes is an array, and item 0 of that array names the kind "x", which there is not.

    NamesKind v name             what the value names as its kind
    HoldsNodes k members v       v stands where a node of kind k has a list of nodes
    Leads v steps name           the steps lead from the value v to one that names an unknown kind

Design.  Each part of the reader that fails, fails because of one part of the value: the items
of an array because of the first that is no node, the members of an object because of one of its
lists.  These are the step lemmas (`..._eq_error`); the induction that puts them together is over
the parts of the value, as for everything about reading.
-/
import TexTree.Proofs.Codec.Walks

namespace TexTree

open Json (sameName)

/-! ### Readers that fail -/

section Outcome

variable {ε α β : Type}

end Outcome

/-! ### Kinds that are named -/

/-- The value stands where an object with the members, read as a node of kind `k`, has a list
of nodes: in its arguments or its content, or in the content of its single argument. -/
inductive HoldsNodes (k : Kind) (members : List (String × Json)) : Json → Prop
  | field {m : String × Json} {f : Field} (hm : m ∈ members) (hf : f ∈ k.fields)
      (hnodes : f = .args ∨ f = .content) (hname : sameName f.key m.1) : HoldsNodes k members m.2
  | argument {name : String} {inner : List (String × Json)} {m : String × Json}
      (harg : (name, Json.object inner) ∈ members) (hf : Field.argument ∈ k.fields)
      (hname : sameName Field.argument.key name) (hm : m ∈ inner)
      (hcontent : sameName "content" m.1) : HoldsNodes k members m.2

theorem HoldsNodes.mono {k : Kind} {members members' : List (String × Json)} {v : Json}
    (h : HoldsNodes k members v) (hsub : members ⊆ members') : HoldsNodes k members' v := by
  cases h with
  | field hm hf hnodes hname => exact .field (hsub hm) hf hnodes hname
  | argument harg hf hname hm hcontent => exact .argument (hsub harg) hf hname hm hcontent

example : DecodeError.message ⟨[.node .textCommand, .item 0], .unknownKind "macro"⟩ =
    "unable to decode command.text node: node #0: unknown node kind \"macro\"" := by decide

namespace Node

end Node

/-! ### Documents and texts -/

namespace Document

end Document

namespace Misspelt

/-- A break between paragraphs, and a command with a node of kind "macro" in its argument. -/
def nodes : Json :=
  .array [.object [("kind", .text "parbreak")],
    .object [("kind", .text "command.text"),
      ("arg", .object [("content", .array [.object [("kind", .text "macro")]])])]]

/-- The nodes as the content of a document. -/
def document : Json := .object [("kind", .text "ast.root"), ("content", nodes)]

/-- The path from the list of nodes to the misspelt kind. -/
def path : List Step := [.item 1, .node .textCommand, .item 0]

end Misspelt

end TexTree

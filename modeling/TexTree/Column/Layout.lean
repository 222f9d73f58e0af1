/-
TexTree/Column/Layout.lean

The columns of a table, as its preamble describes them:

    |c|l|p{3cm}|*{2}{r|}

Letters are columns and bars are rules; `@`, `!`, `>` and `<` decorate what stands
next to them and are passed over with their group; `*{n}{...}` stands for n copies
of its second group.

    marks cs            the rules and columns of a preamble, copies written out
    layout ms           the columns among them, each with its borders
    columns s           the columns of a preamble

A column has a border on a side where its neighbour in the list of marks is a
rule, so the rules at the ends of a copy count for the copies next to it.
-/
import TexTree.Column.Braced
import TexTree.Source
import TexTree.Text.Numeral
import TexTree.Text.Utf8

namespace TexTree

/-- How a column is set: by one line, or as a paragraph that is lined up at its
top, middle or bottom. -/
inductive Align where
  | center
  | left
  | right
  | top
  | middle
  | bottom
  deriving DecidableEq, Inhabited

/-- The letter of an alignment. -/
def Align.letter : Align → Char
  | .center => 'c'
  | .left => 'l'
  | .right => 'r'
  | .top => 'p'
  | .middle => 'm'
  | .bottom => 'b'

/-- A rule or a column of a preamble. -/
inductive ColumnMark where
  | rule
  | column (align : Align) (width : List Char)
  deriving DecidableEq

/-- A column of a table. -/
structure Column where
  borderLeft : Bool
  align : Align
  width : String
  borderRight : Bool
  deriving DecidableEq

/-! ### Marks -/

/-- What a character of a preamble stands for. -/
inductive Letter where
  | rule
  | line (align : Align)
  | paragraph (align : Align)
  | decoration
  | copies
  | other

/-- What a character of a preamble stands for. -/
def letter : Char → Letter
  | '|' => .rule
  | 'c' => .line .center
  | 'l' => .line .left
  | 'r' => .line .right
  | 'p' => .paragraph .top
  | 'm' => .paragraph .middle
  | 'b' => .paragraph .bottom
  | '@' | '!' | '>' | '<' => .decoration
  | '*' => .copies
  | _ => .other

/-- The most copies that one repeat makes. -/
def maxCopies : Nat := 256

/-- How many copies a repeat makes, by the text of its first group; a text that is
no number makes none. -/
def copies (count : List Char) : Nat :=
  match Numeral.signed? count with
  | some n => min n.toInt.toNat maxCopies
  | none => 0

/-- The rules and columns of a preamble without blanks.  What is not copied is not
written out either, however many copies it may hold itself. -/
def marks (cs : List Char) : List ColumnMark :=
  match cs with
  | [] => []
  | c :: cs =>
    match letter c with
    | .rule => .rule :: marks cs
    | .line align => .column align [] :: marks cs
    | .paragraph align => .column align (braced cs).content :: marks (braced cs).rest
    | .decoration => marks (braced cs).rest
    | .copies =>
      match copies (braced cs).content with
      | 0 => marks (braced (braced cs).rest).rest
      | n + 1 =>
        (List.replicate (n + 1) (marks (braced (braced cs).rest).content)).flatten ++
          marks (braced (braced cs).rest).rest
    | .other => marks cs
termination_by cs.length
decreasing_by
  all_goals
    have h₁ := length_rest_braced cs
    have h₂ := length_rest_braced (braced cs).rest
    have h₃ := length_content_braced (braced cs).rest
    simp only [List.length_cons]
    omega

/-! ### Columns -/

/-- The list starts with a rule. -/
def startsWithRule : List ColumnMark → Bool
  | .rule :: _ => true
  | _ => false

/-- The columns among the marks; `left` tells whether a rule stands before them. -/
def layoutFrom (left : Bool) : List ColumnMark → List Column
  | [] => []
  | .rule :: ms => layoutFrom true ms
  | .column align width :: ms =>
    ⟨left, align, String.ofList width, startsWithRule ms⟩ :: layoutFrom false ms

/-- The columns among the marks, with their borders. -/
def layout (ms : List ColumnMark) : List Column := layoutFrom false ms

/-- A blank of a preamble. -/
def isPreambleBlank (c : Char) : Bool := c == ' ' || c == '\t' || c == '\n' || c == '\r'

/-- The columns of a preamble.  Blanks count nowhere in it. -/
def columns (cs : List Char) : List Column :=
  layout (marks (cs.filter fun c => !isPreambleBlank c))

/-- The columns of a preamble in bytes.  The blanks are taken out before the bytes
are read, so they count nowhere even between the bytes of one character. -/
def columnsOfBytes (bytes : List UInt8) : List Column :=
  layout (marks (Utf8.decode (bytes.filter fun b => !isPreambleBlank (Char.ofNat b.toNat))))

/-- The content of a group. -/
def Node.groupContent? {τ : Type} : Node τ → Option (List (Node τ))
  | .enclosed .group content _ => some (content.getD [])
  | _ => none

/-- The preamble of an environment, which is its first argument in braces. -/
def Node.preamble? {τ : Type} : Node τ → Option (List (Node τ))
  | .environment _ _ args _ _ => (args.getD []).findSome? groupContent?
  | _ => none

/-- The columns of an environment. -/
def Node.columns (n : Node) : List Column :=
  match n.preamble? with
  | some ns => TexTree.columns (writtenList [] ns)
  | none => []

/-- The columns of an environment whose texts are bytes. -/
def Node.columnsOfBytes (n : Node (List UInt8)) : List Column :=
  match n.preamble? with
  | some ns => TexTree.columnsOfBytes (writtenList [] ns)
  | none => []

end TexTree

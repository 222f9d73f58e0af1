/-
TexTree/Source.lean

The source text of nodes.

    n.source b          the source of a node
    sourceAll b ns      the source of siblings, a space being put between two
                        of them where they would otherwise run into each other

The line break `b` is written around the content of environments and displayed
formulas, after their ends and after a paragraph break; with an empty line break
everything stands on one line.

Design.  What is written are lists of characters, or, from nodes whose texts are bytes,
lists of bytes (`Script`).  The bodies of environments and displayed formulas lose the
blanks at their two ends.  The arguments of program listings are written with an empty
line break whatever `b` is.
-/
import TexTree.Node
import TexTree.Text.Bytes

namespace TexTree

/-! ### What sources are written in -/

/-- What sources are written in: nodes hold texts of type `τ`, and a source is a list of
`α`. -/
class Script (α : Type) (τ : outParam Type) where
  /-- A text of a node, as it is written. -/
  spell : τ → List α
  /-- Markup, as it is written. -/
  markup : List Char → List α
  /-- What is left of a source when the white space at its two ends is cut off. -/
  trim : List α → List α
  /-- Markup is written sign by sign. -/
  markup_append (s t : List Char) : markup (s ++ t) = markup s ++ markup t

/-- Sources in characters. -/
instance : Script Char String where
  spell := String.toList
  markup := id
  trim := trim
  markup_append _ _ := rfl

/-- Sources in bytes, with texts that need not be UTF-8. -/
instance : Script UInt8 (List UInt8) where
  spell := id
  markup := Utf8.encode
  trim := Utf8.trim
  markup_append _ _ := List.flatMap_append

@[simp] theorem spell_string (s : String) : Script.spell s = s.toList := rfl

@[simp] theorem markup_chars (s : List Char) : (Script.markup s : List Char) = s := rfl

@[simp] theorem trim_chars (s : List Char) : Script.trim s = trim s := rfl

open Script (spell markup)

variable {α τ : Type} [Script α τ]

namespace Node

/-! ### Spaces between siblings -/

/-- A command without arguments, whose name the next character may extend. -/
def isBareCommand : Node τ → Bool
  | .command _ args _ => (args.getD []).isEmpty
  | _ => false

/-- A space is written between two siblings: before text, before a symbol that
follows something else, and between a command without arguments and a parameter;
never after a parameter. -/
def needsSpace (n next : Node τ) : Bool :=
  match n, next with
  | .parameter .., _ => false
  | _, .text .. => true
  | .mathChar .., .mathChar .. => false
  | _, .mathChar .. => true
  | n, .parameter .. => n.isBareCommand
  | _, _ => false

/-- The space between two siblings, if one is needed. -/
def gap (n next : Node τ) : List α := if n.needsSpace next then markup [' '] else []

end Node

/-! ### Delimiters -/

/-- What is written before the content of an enclosure. -/
def Enclosure.opening : Enclosure → List Char
  | .group => ['\x7b']
  | .optional => ['[']
  | .superscript => ['^']
  | .subscript => ['_']
  | .inlineMath => ['$']
  | .displayMath => ['\\', '[']

/-- What is written after the content of an enclosure. -/
def Enclosure.closing : Enclosure → List Char
  | .group => ['\x7d']
  | .optional => [']']
  | .superscript | .subscript => []
  | .inlineMath => ['$']
  | .displayMath => ['\\', ']']

/-- A list of nodes that has been written, in its enclosure.  A displayed formula
is trimmed and stands on lines of its own. -/
def Enclosure.enclose (lineBreak : List α) (e : Enclosure) (body : List α) : List α :=
  match e with
  | .displayMath => [markup e.opening, lineBreak, Script.trim body, lineBreak,
      markup e.closing, lineBreak].flatten
  | _ => markup e.opening ++ body ++ markup e.closing

/-- A control word: a backslash and the letters of its name. -/
def controlWord (name : List α) : List α := markup ['\\'] ++ name

/-- A mark. -/
def Mark.source (lineBreak : List α) : Mark → List α
  | .parBreak => controlWord (markup "par".toList) ++ lineBreak
  | .alignmentTab => markup ['&']
  | .tie => markup ['~']
  | .ignored => []

/-- The begin of an environment. -/
def beginning (name : List α) : List α :=
  controlWord (markup "begin".toList) ++ markup ['\x7b'] ++ name ++ markup ['\x7d']

/-- The end of an environment. -/
def ending (name : List α) : List α :=
  controlWord (markup "end".toList) ++ markup ['\x7b'] ++ name ++ markup ['\x7d']

/-- An environment whose arguments and content have been written. -/
def environmentSource (lineBreak name args content : List α) : List α :=
  [beginning name, Script.trim args, lineBreak, Script.trim content, lineBreak, ending name,
    lineBreak].flatten

/-! ### Nodes -/

namespace Node

mutual

/-- The source of a node. -/
def written (lineBreak : List α) : Node τ → List α
  | .text content _ => spell content
  | .mathChar content _ => spell content
  | .command name args _ => controlWord (spell name) ++ writtenOption lineBreak args
  | .textCommand arg _ =>
    controlWord (markup "text".toList) ++ writtenArgument lineBreak .group arg
  | .letCommand _ token target _ =>
    controlWord (markup "let".toList) ++ spell token ++ spell target
  | .defCommand _ token args _ =>
    controlWord (markup "def".toList) ++ spell token ++ writtenOption lineBreak args
  | .environment _ name args content _ =>
    environmentSource lineBreak (spell name) (writtenOption lineBreak args)
      (writtenOption lineBreak content)
  | .enclosed e content _ => e.enclose lineBreak (writtenOption lineBreak content)
  | .delimited left right content _ =>
    controlWord (markup "left".toList) ++ spell left ++ writtenOption lineBreak content ++
      controlWord (markup "right".toList) ++ spell right
  | .mark m _ => m.source lineBreak
  | .parameter number _ => markup ['#'] ++ spell number
  | .verb _ escape content _ =>
    controlWord (markup "verb".toList) ++ spell escape ++ spell content ++ spell escape
  | .verbatim _ content _ =>
    beginning (markup "verbatim".toList) ++ spell content ++
      ending (markup "verbatim".toList) ++ lineBreak
  | .minted _ args content _ =>
    beginning (markup "minted".toList) ++ writtenOption [] args ++ spell content ++
      ending (markup "minted".toList) ++ lineBreak
  | .listing _ arg content _ =>
    beginning (markup "lstlisting".toList) ++ writtenArgument [] .optional arg ++ spell content ++
      ending (markup "lstlisting".toList)

/-- The source of siblings. -/
def writtenList (lineBreak : List α) : List (Node τ) → List α
  | [] => []
  | [n] => written lineBreak n
  | n :: m :: ns => written lineBreak n ++ gap n m ++ writtenList lineBreak (m :: ns)

/-- The source of siblings that may be missing. -/
def writtenOption (lineBreak : List α) : Option (List (Node τ)) → List α
  | none => []
  | some ns => writtenList lineBreak ns

/-- The source of a single argument that may be missing. -/
def writtenArgument (lineBreak : List α) (e : Enclosure) : Option (Argument (Node τ)) → List α
  | none => []
  | some ⟨content, _⟩ => e.enclose lineBreak (writtenOption lineBreak content)

end

/-- A missing list is written like an empty one. -/
@[simp] theorem writtenOption_eq (b : List α) (ns : Option (List (Node τ))) :
    writtenOption b ns = writtenList b (ns.getD []) := by
  cases ns <;> simp [writtenOption, writtenList]

/-- A single argument is written like the node that it is. -/
theorem writtenArgument_some (b : List α) (e : Enclosure) (a : Argument (Node τ)) :
    writtenArgument b e (some a) = written b (a.toNode e) := by
  simp [writtenArgument, Argument.toNode, written]

/-- The source of a node. -/
def source (lineBreak : String) (n : Node) : String := String.ofList (n.written lineBreak.toList)

end Node

/-- The source of siblings. -/
def sourceAll (lineBreak : String) (ns : List Node) : String :=
  String.ofList (Node.writtenList lineBreak.toList ns)

/-- Hands the source of siblings to a writer, all at once. -/
def writeSource {m : Type → Type} (write : String → m Unit) (lineBreak : String)
    (ns : List Node) : m Unit :=
  write (sourceAll lineBreak ns)

end TexTree

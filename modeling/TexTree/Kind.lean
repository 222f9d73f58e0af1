/-
TexTree/Kind.lean

The 25 kinds of node and the names under which they are exchanged.

    ofName? k.name = some k       and no other name belongs to a kind
-/

namespace TexTree

/-- A kind of node. -/
inductive Kind where
  | text
  | command
  | textCommand
  | letCommand
  | defCommand
  | environment
  | align
  | aligned
  | group
  | optional
  | parBreak
  | superscript
  | subscript
  | alignmentTab
  | parameter
  | tie
  | ignored
  | verb
  | verbatim
  | minted
  | listing
  | inlineMath
  | displayMath
  | mathChar
  | delimited
  deriving DecidableEq, Inhabited

namespace Kind

/-- Every kind, in the order of its declaration. -/
def all : List Kind :=
  [.text, .command, .textCommand, .letCommand, .defCommand, .environment, .align, .aligned,
    .group, .optional, .parBreak, .superscript, .subscript, .alignmentTab, .parameter, .tie,
    .ignored, .verb, .verbatim, .minted, .listing, .inlineMath, .displayMath, .mathChar,
    .delimited]

/-- The name of a kind. -/
def name : Kind → String
  | .text => "text.string"
  | .command => "command"
  | .textCommand => "command.text"
  | .letCommand => "command.let"
  | .defCommand => "command.def"
  | .environment => "env"
  | .align => "env.math.align"
  | .aligned => "env.math.aligned"
  | .group => "arg.group"
  | .optional => "arg.optional"
  | .parBreak => "parbreak"
  | .superscript => "superscript"
  | .subscript => "subscript"
  | .alignmentTab => "alignmentTab"
  | .parameter => "commandParameter"
  | .tie => "activeCharacter"
  | .ignored => "ignore"
  | .verb => "verb"
  | .verbatim => "env.verbatim"
  | .minted => "env.minted"
  | .listing => "env.lstlisting"
  | .inlineMath => "inlineMath"
  | .displayMath => "displayMath"
  | .mathChar => "math.character"
  | .delimited => "math.matching_paren"

/-- The kind with the given name. -/
def ofName? (s : String) : Option Kind := all.find? fun k => k.name == s

/-! ### Names and kinds -/

@[simp] theorem ofName?_name (k : Kind) : ofName? k.name = some k := by
  cases k <;> decide

/-- A name belongs to a kind iff it is that kind's name. -/
theorem ofName?_eq_some_iff {s : String} {k : Kind} : ofName? s = some k ↔ s = k.name := by
  constructor
  · intro h
    have := List.find?_some h
    exact (beq_iff_eq.mp this).symm
  · rintro rfl
    exact ofName?_name k

end Kind

end TexTree

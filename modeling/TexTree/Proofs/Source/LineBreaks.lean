/-
TexTree/Proofs/Source/LineBreaks.lean

Line breaks are layout.  Two line breaks that consist of blanks give sources that
differ in blanks only (`ink_eq_of_lineBreaks`):

    ink (written with b)  =  ink (written with b')

where the ink of a source is what remains of it without white space.  The texts of the
nodes may be any bytes, with one reserve.  An empty line break puts the arguments of an
environment next to its content, where bytes of the two may spell white space together
that none of them spells alone (`ink_stray_ne`).  This cannot be when both line breaks
have something in them, nor when all texts are UTF-8 (`parted_map_bytes`), so it never
happens to nodes whose texts are strings (`ink_source_eq`).

Design.  Bytes have no ink of their own: it depends on what they stand next to.  So what is
compared is the ink in any surroundings (`SameInk`), which is kept when bytes are put
side by side.  Markup, and line breaks that are not empty, part what stands on their two
sides (`Utf8.ink_between`), and trimming takes no ink away (`Utf8.ink_trim`); hence the ink
of an environment is that of its delimiters, arguments and content
(`ink_environmentSource`), with no line break left in it.
-/
import TexTree.Proofs.Source.Encoding

namespace TexTree

/-! ### Ink -/

/-- What of a text is not white space. -/
def ink (s : List Char) : List Char := s.filter fun c => !isBlank c

namespace Utf8

/-- The bytes that are left when the white space is taken out. -/
def ink (s : List UInt8) : List UInt8 := (kept (fun c => !isBlank c) s).flatMap Spelling.bytes

theorem ink_encode (s : List Char) : ink (encode s) = encode (TexTree.ink s) := by
  rw [ink, kept_encode, List.flatMap_map, TexTree.ink, encode]

/-- Trimming takes away blanks only. -/
theorem ink_trim (s : List UInt8) : ink (trim s) = ink s := by
  rw [ink, kept_trim_eq (fun c hc => by simp [hc]) s, ink]

/-- A text that is not empty parts what stands on its two sides. -/
theorem ink_between (front : List UInt8) {s : List Char} (hs : s ≠ []) (rest : List UInt8) :
    ink (front ++ (encode s ++ rest)) = ink front ++ (ink (encode s) ++ ink rest) := by
  rw [ink, kept_between front hs rest, List.flatMap_append, List.flatMap_append, ink, ink, ink]

theorem ink_encode_append (s : List Char) (rest : List UInt8) :
    ink (encode s ++ rest) = ink (encode s) ++ ink rest := by
  rw [ink, kept_encode_append s rest, List.flatMap_append, ink, ink]

/-- Behind such a text everything starts anew. -/
theorem ink_behind (front : List UInt8) {s : List Char} (hs : s ≠ []) (rest : List UInt8) :
    ink (front ++ encode s ++ rest) = ink (front ++ encode s) ++ ink rest := by
  have hend := ink_between front hs []
  rw [List.append_nil, show ink [] = [] from rfl, List.append_nil] at hend
  rw [List.append_assoc, ink_between front hs, hend, List.append_assoc]

theorem ink_blanks {b : List Char} (hb : ∀ c ∈ b, isBlank c) : ink (encode b) = [] := by
  rw [ink, kept_encode_eq_nil fun c hc => by simp [hb c hc], List.flatMap_nil]

/-- White space across the seam is what comes together or apart. -/
theorem ink_append {s t : List UInt8} (h : NoneAcross isBlank s t) :
    ink (s ++ t) = ink s ++ ink t := by
  have hnot : NoneAcross (fun c => !!isBlank c) s t := by simpa only [Bool.not_not] using h
  exact hnot.flatMap_bytes_kept (by decide)

end Utf8

open Utf8 (NoneAcross)

/-! ### The ink of what is written -/

section Layout

variable {b : List Char} (hb : ∀ c ∈ b, isBlank c)

include hb

/-- The line break behind a delimiter, with more behind it. -/
theorem ink_delimiter (front : List UInt8) {s : List Char} (hs : s ≠ []) (rest : List UInt8) :
    Utf8.ink (front ++ (Utf8.encode s ++ (Utf8.encode b ++ rest))) =
      Utf8.ink front ++ (Utf8.ink (Utf8.encode s) ++ Utf8.ink rest) := by
  rw [Utf8.ink_between front hs, Utf8.ink_encode_append b, Utf8.ink_blanks hb, List.nil_append]

/-- The line break in front of a delimiter. -/
theorem ink_break (front : List UInt8) {s : List Char} (hs : s ≠ []) (rest : List UInt8) :
    Utf8.ink (front ++ (Utf8.encode b ++ (Utf8.encode s ++ rest))) =
      Utf8.ink front ++ (Utf8.ink (Utf8.encode s) ++ Utf8.ink rest) := by
  have hboth : b ++ s ≠ [] := List.append_ne_nil_of_right_ne_nil b hs
  rw [← List.append_assoc (Utf8.encode b), ← Utf8.encode_append, Utf8.ink_between front hboth,
    Utf8.encode_append, Utf8.ink_encode_append b, Utf8.ink_blanks hb, List.nil_append]

/-- Line breaks part the arguments of an environment from its content, unless they are
empty. -/
theorem ink_inside {args content : List UInt8}
    (hseam : b = [] → NoneAcross isBlank (Utf8.trim args) (Utf8.trim content)) :
    Utf8.ink (Utf8.trim args ++ (Utf8.encode b ++ Utf8.trim content)) =
      Utf8.ink args ++ Utf8.ink content := by
  by_cases hempty : b = []
  · subst hempty
    have hnil : Utf8.encode [] = [] := rfl
    rw [hnil, List.nil_append, Utf8.ink_append (hseam rfl), Utf8.ink_trim, Utf8.ink_trim]
  · rw [Utf8.ink_between _ hempty, Utf8.ink_blanks hb, List.nil_append, Utf8.ink_trim,
      Utf8.ink_trim]

/-- A displayed formula has the ink of its delimiters and of its body, whatever it stands
between. -/
theorem ink_displayMath (body p q : List UInt8) :
    Utf8.ink (p ++ Enclosure.displayMath.enclose (Utf8.encode b) body ++ q) =
      Utf8.ink p ++ (Utf8.ink (Utf8.encode Enclosure.displayMath.opening) ++ (Utf8.ink body ++
        (Utf8.ink (Utf8.encode Enclosure.displayMath.closing) ++ Utf8.ink q))) := by
  have hbody : (Script.trim body : List UInt8) = Utf8.trim body := rfl
  simp only [Enclosure.enclose, markup_bytes, hbody, List.flatten_cons, List.flatten_nil,
    List.append_nil, List.append_assoc]
  rw [ink_delimiter hb p (by decide), ink_break hb _ (by decide), Utf8.ink_encode_append b,
    Utf8.ink_blanks hb, List.nil_append, Utf8.ink_trim]

/-- An environment has the ink of its begin and end, its arguments and its content, whatever it
stands between. -/
theorem ink_environmentSource (name : List UInt8) {args content : List UInt8}
    (hseam : b = [] → NoneAcross isBlank (Utf8.trim args) (Utf8.trim content)) (p q : List UInt8) :
    Utf8.ink (p ++ environmentSource (Utf8.encode b) name args content ++ q) =
      Utf8.ink (p ++ beginning name) ++ (Utf8.ink args ++ Utf8.ink content ++
        (Utf8.ink (ending name) ++ Utf8.ink q)) := by
  -- the brace that ends the begin, the backslash that starts the end, the brace that ends it
  have hbegin (rest : List UInt8) : Utf8.ink (p ++ beginning name ++ rest) =
      Utf8.ink (p ++ beginning name) ++ Utf8.ink rest := by
    rw [beginning, markup_bytes ['\x7d'], ← List.append_assoc p]
    exact Utf8.ink_behind _ (by decide) rest
  have hend : ∃ inner, ending name = Utf8.encode ['\\'] ++ (inner ++ Utf8.encode ['\x7d']) :=
    ⟨Utf8.encode "end".toList ++ Utf8.encode ['\x7b'] ++ name, by
      simp only [ending, controlWord, markup_bytes, List.append_assoc]⟩
  obtain ⟨inner, hinner⟩ := hend
  have hargs : (Script.trim args : List UInt8) = Utf8.trim args := rfl
  have hcontent : (Script.trim content : List UInt8) = Utf8.trim content := rfl
  calc Utf8.ink (p ++ environmentSource (Utf8.encode b) name args content ++ q)
      = Utf8.ink (p ++ beginning name ++ (Utf8.trim args ++ (Utf8.encode b ++ Utf8.trim content) ++
          (Utf8.encode b ++ (Utf8.encode ['\\'] ++ (inner ++ Utf8.encode ['\x7d'] ++
            (Utf8.encode b ++ q)))))) := by
        simp only [environmentSource, hargs, hcontent, hinner, List.flatten_cons,
          List.flatten_nil, List.append_nil, List.append_assoc]
    _ = Utf8.ink (p ++ beginning name) ++ (Utf8.ink args ++ Utf8.ink content ++
          (Utf8.ink (Utf8.encode ['\\']) ++ (Utf8.ink (inner ++ Utf8.encode ['\x7d']) ++
            Utf8.ink q))) := by
        rw [hbegin, ink_break hb _ (by decide), ink_inside hb hseam, Utf8.ink_behind _ (by decide),
          Utf8.ink_encode_append b, Utf8.ink_blanks hb, List.nil_append]
    _ = Utf8.ink (p ++ beginning name) ++ (Utf8.ink args ++ Utf8.ink content ++
          (Utf8.ink (ending name) ++ Utf8.ink q)) := by
        rw [hinner, Utf8.ink_encode_append ['\\'],
          List.append_assoc (Utf8.ink (Utf8.encode ['\\']))]

end Layout

/-! ### Ink in all surroundings -/

/-- The bytes have the same ink, whatever they stand between. -/
def SameInk (s t : List UInt8) : Prop := ∀ p q, Utf8.ink (p ++ s ++ q) = Utf8.ink (p ++ t ++ q)

namespace SameInk

variable {s s' t t' : List UInt8}

theorem refl (s : List UInt8) : SameInk s s := fun _ _ => rfl

theorem ink_eq (h : SameInk s t) : Utf8.ink s = Utf8.ink t := by
  have hnone := h [] []
  rwa [List.nil_append, List.nil_append, List.append_nil, List.append_nil] at hnone

theorem append (h : SameInk s s') (h' : SameInk t t') : SameInk (s ++ t) (s' ++ t') := by
  intro p q
  have hleft := h p (t ++ q)
  have hright := h' (p ++ s') q
  simp only [List.append_assoc] at hleft hright ⊢
  rw [hleft, hright]

/-- Markup with a line break behind it, whichever that is. -/
theorem delimiter {b b' : List Char} (hb : ∀ c ∈ b, isBlank c) (hb' : ∀ c ∈ b', isBlank c)
    {m : List Char} (hm : m ≠ []) :
    SameInk (Utf8.encode m ++ Utf8.encode b) (Utf8.encode m ++ Utf8.encode b') := by
  intro p q
  rw [List.append_assoc p, List.append_assoc p, List.append_assoc (Utf8.encode m),
    List.append_assoc (Utf8.encode m), ink_delimiter hb p hm, ink_delimiter hb' p hm]

/-- The end of an environment with a line break behind it. -/
theorem ending {b b' : List Char} (hb : ∀ c ∈ b, isBlank c) (hb' : ∀ c ∈ b', isBlank c)
    (name : List UInt8) :
    SameInk (ending name ++ Utf8.encode b) (TexTree.ending name ++ Utf8.encode b') := by
  have hbrace : SameInk (Utf8.encode ['\x7d'] ++ Utf8.encode b)
      (Utf8.encode ['\x7d'] ++ Utf8.encode b') := delimiter hb hb' (by decide)
  rw [TexTree.ending, markup_bytes ['\x7d'], List.append_assoc _ (Utf8.encode ['\x7d']),
    List.append_assoc _ (Utf8.encode ['\x7d'])]
  exact (refl _).append hbrace

end SameInk

/-! ### Nodes -/

namespace Node

/-- The nodes in a node that are written with its line break: not those in the arguments of
program listings. -/
def broken {τ : Type} : Node τ → List (Node τ)
  | .minted .. | .listing .. => []
  | n => n.children

/-- What is written on one line of the arguments of an environment, and of its content. -/
def seam : Node (List UInt8) → List UInt8 × List UInt8
  | .environment _ _ args content _ =>
    (Utf8.trim (writtenList [] (args.getD [])), Utf8.trim (writtenList [] (content.getD [])))
  | _ => ([], [])

/-- Nowhere in the tree do the arguments of an environment end in bytes that spell white space
together with bytes at the start of its content. -/
inductive Parted : Node (List UInt8) → Prop
  | intro {n : Node (List UInt8)} (hseam : NoneAcross isBlank n.seam.1 n.seam.2)
      (hbroken : ∀ m ∈ n.broken, m.Parted) : n.Parted

theorem sameInk_writtenList {b b' : List UInt8} {ns : List (Node (List UInt8))}
    (h : ∀ n ∈ ns, SameInk (n.written b) (n.written b')) :
    SameInk (writtenList b ns) (writtenList b' ns) := by
  induction ns with
  | nil => exact .refl _
  | cons n ns ih =>
    obtain ⟨hn, hns⟩ := List.forall_mem_cons.mp h
    rw [writtenList_cons, writtenList_cons]
    refine hn.append ?_
    cases ns with
    | nil => exact .refl _
    | cons m ns => exact (SameInk.refl (gap n m)).append (ih hns)

/-- What holds of the children of a node holds of the node. -/
theorem sameInk_written_of_children {b b' : List Char} (hb : ∀ c ∈ b, isBlank c)
    (hb' : ∀ c ∈ b', isBlank c) {n : Node (List UInt8)}
    (hseam : b = [] ∨ b' = [] → NoneAcross isBlank n.seam.1 n.seam.2)
    (ih : ∀ m ∈ n.broken, SameInk (m.written (Utf8.encode b)) (m.written (Utf8.encode b'))) :
    SameInk (n.written (Utf8.encode b)) (n.written (Utf8.encode b')) := by
  have hlist : ∀ ns : Option (List (Node (List UInt8))), (∀ m ∈ ns.getD [], m ∈ n.broken) →
      SameInk (writtenOption (Utf8.encode b) ns) (writtenOption (Utf8.encode b') ns) := by
    intro ns hsub
    rw [writtenOption_eq, writtenOption_eq]
    exact sameInk_writtenList fun m hm => ih m (hsub m hm)
  cases n with
  | command name args => exact (SameInk.refl _).append (hlist args fun _ => id)
  | textCommand arg =>
    cases arg with
    | none => exact .refl _
    | some a =>
      have ha := ih (a.toNode .group) List.mem_cons_self
      rw [written, written, writtenArgument_some, writtenArgument_some]
      exact (SameInk.refl _).append ha
  | defCommand name token args => exact (SameInk.refl _).append (hlist args fun _ => id)
  | environment f name args content =>
    have hargs := (hlist args fun _ => List.mem_append_right _).ink_eq
    have hcontent := (hlist content fun _ => List.mem_append_left _).ink_eq
    have hparted : ∀ c : List Char, c = b ∨ c = b' → c = [] →
        NoneAcross isBlank (Utf8.trim (writtenOption (Utf8.encode c) args))
          (Utf8.trim (writtenOption (Utf8.encode c) content)) := by
      intro c hc hnil
      have hempty : b = [] ∨ b' = [] :=
        hc.imp (fun h => h.symm.trans hnil) fun h => h.symm.trans hnil
      rw [hnil, writtenOption_eq, writtenOption_eq]
      exact hseam hempty
    intro p q
    rw [written, written, ink_environmentSource hb _ (hparted b (.inl rfl)),
      ink_environmentSource hb' _ (hparted b' (.inr rfl)), hargs, hcontent]
  | enclosed e content =>
    have hcontent := hlist content fun _ => id
    cases e with
    | displayMath =>
      intro p q
      rw [written, written, ink_displayMath hb, ink_displayMath hb', hcontent.ink_eq]
    | _ => exact ((SameInk.refl _).append hcontent).append (.refl _)
  | delimited left right content =>
    exact (((SameInk.refl _).append (hlist content fun _ => id)).append (.refl _)).append (.refl _)
  | mark m =>
    cases m with
    | parBreak =>
      simp only [written, Mark.source, markup_bytes, encode_controlWord]
      exact SameInk.delimiter hb hb' (by simp [controlWord])
    | alignmentTab | tie | ignored => exact .refl _
  | verbatim name content =>
    rw [written, written, List.append_assoc _ (ending _), List.append_assoc _ (ending _)]
    exact (SameInk.refl _).append (.ending hb hb' _)
  -- the arguments of a listing are written without the line break
  | minted name args content =>
    rw [written, written, List.append_assoc _ (ending _), List.append_assoc _ (ending _)]
    exact (SameInk.refl _).append (.ending hb hb' _)
  | _ => exact .refl _

/-- **The ink of a node does not depend on the line break**, in whatever the node stands. -/
theorem sameInk_written {b b' : List Char} (hb : ∀ c ∈ b, isBlank c) (hb' : ∀ c ∈ b', isBlank c)
    (n : Node (List UInt8)) (h : b = [] ∨ b' = [] → n.Parted) :
    SameInk (n.written (Utf8.encode b)) (n.written (Utf8.encode b')) := by
  induction n using inductionOnChildren with
  | step n ih =>
    have hbelow : ∀ m ∈ n.broken, m ∈ n.children := by
      intro m hm
      cases n with
      | minted | listing => cases hm
      | _ => exact hm
    refine sameInk_written_of_children hb hb' (fun hempty => ?_) fun m hm =>
      ih m (hbelow m hm) fun hempty => ?_
    · obtain ⟨hseam, -⟩ := h hempty
      exact hseam
    · obtain ⟨-, hbroken⟩ := h hempty
      exact hbroken m hm

/-- Where all texts are UTF-8, so is what is written. -/
theorem parted_map_bytes (n : Node) : (n.map Utf8.bytes).Parted := by
  induction n using inductionOnChildren with
  | step n ih =>
    refine ⟨?_, fun m hm => ?_⟩
    · cases n with
      | environment flavour name args content =>
        have hcontent : Utf8.trim (writtenList [] ((content.getD []).map (map Utf8.bytes))) =
            Utf8.encode (trim (writtenList [] (content.getD []))) := by
          rw [← Utf8.trim_encode, ← writtenList_map_bytes]
          rfl
        rw [map, seam, getD_mapOption, getD_mapOption, hcontent]
        exact Utf8.noneAcross_of_starts isBlank _ (Utf8.starts_encode _)
      | _ => exact (rfl : NoneAcross isBlank [] [])
    · have hchild : m ∈ n.children.map (map Utf8.bytes) := by
        rw [← children_map]
        cases n with
        | minted | listing => cases hm
        | _ => exact hm
      obtain ⟨x, hx, rfl⟩ := List.mem_map.mp hchild
      exact ih x hx

end Node

/-! ### Two line breaks -/

/-- **A line break changes white space only.**  With two line breaks of blanks, the sources of
siblings have the same ink, and so have those of every node, if both line breaks are empty or
both are not, or if nowhere bytes of the arguments and of the content of an environment spell
white space together.  They never do where all texts are UTF-8. -/
theorem ink_eq_of_lineBreaks {b b' : String} (hb : ∀ c ∈ b.toList, isBlank c)
    (hb' : ∀ c ∈ b'.toList, isBlank c) :
    (∀ ns : List (Node (List UInt8)), ((b = "" ↔ b' = "") ∨ ∀ n ∈ ns, n.Parted) →
      Utf8.ink (Node.writtenList (Utf8.bytes b) ns) =
        Utf8.ink (Node.writtenList (Utf8.bytes b') ns)) ∧
    (∀ n : Node (List UInt8), ((b = "" ↔ b' = "") ∨ n.Parted) →
      Utf8.ink (n.written (Utf8.bytes b)) = Utf8.ink (n.written (Utf8.bytes b'))) ∧
    ∀ n : Node, (n.map Utf8.bytes).Parted := by
  have hnode : ∀ n : Node (List UInt8), ((b = "" ↔ b' = "") ∨ n.Parted) →
      SameInk (n.written (Utf8.bytes b)) (n.written (Utf8.bytes b')) := by
    intro n h
    rw [Utf8.bytes_eq_encode, Utf8.bytes_eq_encode]
    rcases h with hboth | hparted
    · by_cases hempty : b = ""
      · rw [hempty, hboth.mp hempty]
        exact .refl _
      · have hempty' : b' ≠ "" := fun h => hempty (hboth.mpr h)
        refine Node.sameInk_written hb hb' n fun h => ?_
        rw [String.toList_eq_nil_iff, String.toList_eq_nil_iff] at h
        exact absurd h (not_or.mpr ⟨hempty, hempty'⟩)
    · exact Node.sameInk_written hb hb' n fun _ => hparted
  refine ⟨fun ns h => ?_, fun n h => (hnode n h).ink_eq, Node.parted_map_bytes⟩
  exact (Node.sameInk_writtenList fun n hn => hnode n (h.imp_right fun hall => hall n hn)).ink_eq

/-- An environment with a stray byte for its arguments and another one for its content, which
together spell a no-break space. -/
def strayBytes : Node (List UInt8) :=
  .environment .plain [0x78] (some [.text [0xc2] none]) (some [.text [0xa0] none]) none

/-- A line break parts the two bytes, and nothing else does: between the begin and the end of the
environment nothing is left without it, and the two bytes with it. -/
theorem ink_stray_ne :
    (∀ c ∈ "".toList, isBlank c) ∧ (∀ c ∈ "\n".toList, isBlank c) ∧
      Utf8.ink (Node.writtenList (Utf8.bytes "") [strayBytes]) ≠
        Utf8.ink (Node.writtenList (Utf8.bytes "\n") [strayBytes]) := by
  refine ⟨List.all_eq_true.mp (by decide +kernel), List.all_eq_true.mp (by decide +kernel), ?_⟩
  decide +kernel

/-- An environment with a stray byte for its arguments.  With the first byte of its content it
spells a letter, and it would spell white space with the last one, which stands in a formula. -/
def strayFormula : Node (List UInt8) :=
  .environment .plain (Utf8.bytes "proof") (some [.text [0xc2] none])
    (some [.text [0xb5] none,
      .enclosed .displayMath (some [.mathChar (Utf8.bytes "x") none, .text [0xa0] none]) none]) none

/-- No line break changes the ink of the environment with the formula.  Where two bytes spell
white space together, two line breaks still leave the same if both have something in them. -/
theorem ink_strayFormula :
    (∀ c ∈ "\n".toList, isBlank c) ∧ (∀ c ∈ "".toList, isBlank c) ∧
      (∀ c ∈ "\u3000".toList, isBlank c) ∧ strayFormula.Parted ∧
      Utf8.ink (Node.writtenList (Utf8.bytes "\n") [strayFormula]) =
        Utf8.ink (Node.writtenList (Utf8.bytes "") [strayFormula]) ∧
      Utf8.ink (strayBytes.written (Utf8.bytes "\n")) =
        Utf8.ink (strayBytes.written (Utf8.bytes "\u3000")) := by
  have hbreak : ∀ c ∈ "\n".toList, isBlank c := List.all_eq_true.mp (by decide +kernel)
  have hnone : ∀ c ∈ "".toList, isBlank c := List.all_eq_true.mp (by decide +kernel)
  have hspace : ∀ c ∈ "\u3000".toList, isBlank c := List.all_eq_true.mp (by decide +kernel)
  have hleaf {n : Node (List UInt8)} (hseam : n.seam = ([], [])) (hbroken : n.broken = []) :
      n.Parted := ⟨by rw [hseam]; exact rfl, by rw [hbroken]; exact List.forall_mem_nil _⟩
  have hformula : Node.Parted (.enclosed .displayMath (some [.mathChar (Utf8.bytes "x") none,
      .text [0xa0] none]) none) :=
    ⟨rfl, List.forall_mem_cons.mpr ⟨hleaf rfl rfl, List.forall_mem_singleton.mpr (hleaf rfl rfl)⟩⟩
  have hparted : strayFormula.Parted := by
    refine ⟨?_, List.forall_mem_cons.mpr ⟨hleaf rfl rfl, List.forall_mem_cons.mpr
      ⟨hformula, List.forall_mem_singleton.mpr (hleaf rfl rfl)⟩⟩⟩
    rw [NoneAcross]
    decide +kernel
  exact ⟨hbreak, hnone, hspace, hparted,
    (ink_eq_of_lineBreaks hbreak hnone).1 _ (.inr (List.forall_mem_singleton.mpr hparted)),
    (ink_eq_of_lineBreaks hbreak hspace).2.1 _ (.inl (by decide +kernel))⟩

/-- Nodes whose texts are strings, and so valid Unicode, have the same ink with all line breaks
of blanks. -/
theorem ink_source_eq {b b' : String} (hb : ∀ c ∈ b.toList, isBlank c)
    (hb' : ∀ c ∈ b'.toList, isBlank c) :
    (∀ ns, ink (sourceAll b ns).toList = ink (sourceAll b' ns).toList) ∧
      ∀ n : Node, ink (n.source b).toList = ink (n.source b').toList := by
  have hsource (s : String) (ns : List Node) : Utf8.encode (ink (sourceAll s ns).toList) =
      Utf8.ink (Node.writtenList (Utf8.encode s.toList) (ns.map (Node.map Utf8.bytes))) := by
    rw [Node.writtenList_map_bytes, Utf8.ink_encode, sourceAll, String.toList_ofList]
  have hall (ns : List Node) : ink (sourceAll b ns).toList = ink (sourceAll b' ns).toList := by
    have hsame : SameInk (Node.writtenList (Utf8.encode b.toList) (ns.map (Node.map Utf8.bytes)))
        (Node.writtenList (Utf8.encode b'.toList) (ns.map (Node.map Utf8.bytes))) := by
      refine Node.sameInk_writtenList fun n hn => ?_
      obtain ⟨m, -, rfl⟩ := List.mem_map.mp hn
      exact Node.sameInk_written hb hb' _ fun _ => m.parted_map_bytes
    have hbytes := (hsource b ns).trans (hsame.ink_eq.trans (hsource b' ns).symm)
    rw [← Utf8.decode_encode (ink _), hbytes, Utf8.decode_encode]
  exact ⟨hall, fun n => hall [n]⟩

end TexTree

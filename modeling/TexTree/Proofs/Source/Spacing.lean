/-
TexTree/Proofs/Source/Spacing.lean

Spaces between siblings.  Where the source of a node starts with a letter, a space
stands between it and the node in front of it, so that a control word written there
ends where its name does:

    \alpha, x      is written      \alpha x

and this stays so when siblings without source stand between the two
(`letter_behind_spaces`): the space may then have been written anywhere in their run.

Design.  Only text and symbols have a source of their own choosing; that of any other
node starts with one of nine characters of markup, or is empty when the node is
ignored (`written_starts`).  So a letter comes from text or from a symbol, and both
want a space in front of them (`needsSpace_of_kind`) unless a symbol follows a
symbol.  A run of siblings without source is walked from the left (`writtenList_run`):
its first symbol has the space, or the node behind the run when it holds none.
-/
import TexTree.Source

namespace TexTree

namespace Node

variable {α τ : Type} [Script α τ] {b : List α}

/-! ### What a source starts with -/

/-- The characters that the source of a node starts with which is neither text nor a
symbol. -/
def markup : List Char := ['\\', '\x7b', '[', '^', '_', '$', '&', '#', '~']

theorem not_isAlpha_of_mem_markup {c : Char} (h : c ∈ markup) : c.isAlpha = false := by
  have hall : (markup.all fun d => !d.isAlpha) = true := by decide
  simpa using List.all_eq_true.mp hall c h

/-- The source of a node starts with a character of markup, unless the node is text, a
symbol, or ignored, and then has no source. -/
theorem written_starts (b : List α) (n : Node τ) :
    n.kind = .text ∨ n.kind = .mathChar ∨ (n.kind = .ignored ∧ n.written b = []) ∨
      ∃ c ∈ markup, Script.markup [c] <+: n.written b := by
  cases n with
  | text => exact .inl rfl
  | mathChar => exact .inr (.inl rfl)
  | mark m =>
    refine .inr (.inr ?_)
    cases m with
    | ignored => exact .inl ⟨rfl, rfl⟩
    | parBreak => exact .inr ⟨'\\', by decide, by simp [written, Mark.source, controlWord]⟩
    | alignmentTab => exact .inr ⟨'&', by decide, List.prefix_rfl⟩
    | tie => exact .inr ⟨'~', by decide, List.prefix_rfl⟩
  | enclosed e content =>
    refine .inr (.inr (.inr ?_))
    cases e with
    | group => exact ⟨'\x7b', by decide, by simp [written, Enclosure.enclose, Enclosure.opening]⟩
    | optional => exact ⟨'[', by decide, by simp [written, Enclosure.enclose, Enclosure.opening]⟩
    | superscript =>
      exact ⟨'^', by decide, by simp [written, Enclosure.enclose, Enclosure.opening]⟩
    | subscript => exact ⟨'_', by decide, by simp [written, Enclosure.enclose, Enclosure.opening]⟩
    | inlineMath =>
      exact ⟨'$', by decide, by simp [written, Enclosure.enclose, Enclosure.opening]⟩
    | displayMath =>
      have hopening : Script.markup Enclosure.displayMath.opening =
          (Script.markup ['\\'] ++ Script.markup ['['] : List α) :=
        Script.markup_append ['\\'] ['[']
      exact ⟨'\\', by decide, by simp [written, Enclosure.enclose, hopening]⟩
  | parameter => exact .inr (.inr (.inr ⟨'#', by decide, List.prefix_append _ _⟩))
  | _ =>
    refine .inr (.inr (.inr ⟨'\\', by decide, ?_⟩))
    simp [written, environmentSource, beginning, controlWord]

/-- Only text and symbols have a source that starts with a letter. -/
theorem kind_of_letter {n : Node} {b : List Char} {c : Char} {cs : List Char}
    (h : n.written b = c :: cs) (hc : c.isAlpha) : n.kind = .text ∨ n.kind = .mathChar := by
  rcases written_starts b n with htext | hsymbol | ⟨-, hnil⟩ | ⟨d, hd, hstart⟩
  · exact .inl htext
  · exact .inr hsymbol
  · cases hnil.symm.trans h
  · rw [h, markup_chars, List.cons_prefix_cons] at hstart
    rw [← hstart.1, not_isAlpha_of_mem_markup hd] at hc
    cases hc

/-- A parameter has a source. -/
theorem kind_ne_parameter_of_written_eq_nil {n : Node} {b : List Char} (h : n.written b = []) :
    n.kind ≠ .parameter := by
  rcases written_starts b n with hkind | hkind | ⟨hkind, -⟩ | ⟨c, -, hstart⟩
  · rw [hkind]
    decide
  · rw [hkind]
    decide
  · rw [hkind]
    decide
  · rw [h, markup_chars, List.prefix_nil] at hstart
    cases hstart

/-! ### Where a space is needed -/

/-- In front of text and of symbols a space is needed, except behind a parameter and
behind another symbol. -/
theorem needsSpace_of_kind {n m : Node τ} (hparameter : n.kind ≠ .parameter)
    (hsymbol : n.kind ≠ .mathChar) (hm : m.kind = .text ∨ m.kind = .mathChar) :
    n.needsSpace m = true := by
  cases m with
  | text =>
    cases n with
    | parameter => exact absurd rfl hparameter
    | _ => rfl
  | mathChar =>
    cases n with
    | parameter => exact absurd rfl hparameter
    | mathChar => exact absurd rfl hsymbol
    | _ => rfl
  | environment f => rcases hm with hm | hm <;> cases f <;> cases hm
  | enclosed e => rcases hm with hm | hm <;> cases e <;> cases hm
  | mark m => rcases hm with hm | hm <;> cases m <;> cases hm
  | _ => rcases hm with hm | hm <;> cases hm

/-- Between two siblings stands a space or nothing. -/
theorem gap_eq_replicate (n m : Node) :
    n.gap m = List.replicate (if n.needsSpace m then 1 else 0) ' ' := by
  rw [gap]
  split <;> rfl

/-! ### Siblings one after the other -/

/-- What is written in front of `n`: the siblings there, with the space behind the last. -/
def writtenBefore (b : List α) : List (Node τ) → Node τ → List α
  | [], _ => []
  | m :: front, n => written b m ++ gap m (front.headD n) ++ writtenBefore b front n

/-- What is written behind `n`: a space or none, and the siblings there. -/
def writtenBehind (b : List α) (n : Node τ) : List (Node τ) → List α
  | [] => []
  | m :: back => gap n m ++ writtenList b (m :: back)

theorem writtenList_cons (b : List α) (n : Node τ) (ns : List (Node τ)) :
    writtenList b (n :: ns) = written b n ++ writtenBehind b n ns := by
  cases ns with
  | nil => rw [writtenList, writtenBehind, List.append_nil]
  | cons m ns => rw [writtenList, writtenBehind, List.append_assoc]

/-- What is written in front of a sibling does not depend on what comes behind it, nor the
other way round. -/
theorem writtenList_append_cons (b : List α) (front : List (Node τ)) (n : Node τ)
    (back : List (Node τ)) :
    writtenList b (front ++ n :: back) =
      writtenBefore b front n ++ written b n ++ writtenBehind b n back := by
  induction front with
  | nil => rw [List.nil_append, writtenList_cons, writtenBefore, List.nil_append]
  | cons m front ih =>
    have hbehind : writtenBehind b m (front ++ n :: back) =
        gap m (front.headD n) ++ writtenList b (front ++ n :: back) := by
      cases front <;> rfl
    rw [List.cons_append, writtenList_cons, hbehind, ih, writtenBefore]
    simp only [List.append_assoc]

/-- What is written in front of a sibling depends on it by the space only. -/
theorem writtenBefore_congr {n m : Node τ} (h : ∀ x : Node τ, x.needsSpace n = x.needsSpace m)
    (b : List α) (front : List (Node τ)) : writtenBefore b front n = writtenBefore b front m := by
  induction front with
  | nil => rfl
  | cons x front ih =>
    have hgap : (gap x (front.headD n) : List α) = gap x (front.headD m) := by
      cases front with
      | nil => rw [gap, gap, List.headD_nil, List.headD_nil, h]
      | cons y front => rfl
    rw [writtenBefore, writtenBefore, ih, hgap]

/-- What is written behind a sibling depends on it by the space only. -/
theorem writtenBehind_congr {n m : Node τ} (h : ∀ x : Node τ, n.needsSpace x = m.needsSpace x)
    (b : List α) (back : List (Node τ)) : writtenBehind b n back = writtenBehind b m back := by
  cases back with
  | nil => rfl
  | cons x back => rw [writtenBehind, writtenBehind, gap, gap, h]

/-- Siblings in front of siblings are written in front of them, with spaces between or
nothing. -/
theorem exists_writtenList_append_eq (b : List Char) (ns ms : List Node) :
    ∃ k, writtenList b (ns ++ ms) =
      writtenList b ns ++ List.replicate k ' ' ++ writtenList b ms := by
  induction ns with
  | nil => exact ⟨0, rfl⟩
  | cons n ns ih =>
    cases ns with
    | nil =>
      cases ms with
      | nil => exact ⟨0, by simp [writtenList]⟩
      | cons m ms =>
        refine ⟨if n.needsSpace m then 1 else 0, ?_⟩
        rw [List.singleton_append, writtenList_cons, writtenBehind, gap_eq_replicate, writtenList,
          List.append_assoc]
    | cons x ns =>
      obtain ⟨k, hk⟩ := ih
      refine ⟨k, ?_⟩
      rw [List.cons_append, List.cons_append, writtenList_cons, writtenBehind,
        ← List.cons_append, hk, writtenList_cons b n, writtenBehind]
      simp only [List.append_assoc]

/-- Between siblings there are only spaces: where these are taken out, each sibling is written
on its own. -/
theorem filter_writtenList {keep : Char → Bool} (hkeep : keep ' ' = false) (b : List Char)
    (ns : List Node) :
    (writtenList b ns).filter keep = ns.flatMap fun n => (n.written b).filter keep := by
  induction ns with
  | nil => rfl
  | cons n ns ih =>
    obtain ⟨k, hk⟩ := exists_writtenList_append_eq b [n] ns
    rw [List.singleton_append] at hk
    rw [hk, List.flatMap_cons, ← ih, List.filter_append, List.filter_append,
      List.filter_replicate_of_neg (by simp [hkeep]), List.append_nil]
    rfl

/-- The nodes are texts, and these are their contents. -/
inductive Texts : List (Node τ) → List τ → Prop
  | nil : Texts [] []
  | cons (content : τ) (loc : Option Location) {ns : List (Node τ)} {contents : List τ}
      (h : Texts ns contents) : Texts (.text content loc :: ns) (content :: contents)

/-- Texts are written with one space between them. -/
theorem Texts.writtenList_eq (b : List Char) {ns : List Node} {contents : List String}
    (h : Texts ns contents) :
    writtenList b ns = [' '].intercalate (contents.map String.toList) := by
  induction h with
  | nil => rfl
  | cons content loc h ih =>
    cases h with
    | nil =>
      rw [List.map_singleton, List.intercalate_singleton]
      rfl
    | cons next loc' h =>
      rw [writtenList_cons, writtenBehind, ih, List.map_cons, List.map_cons, List.map_cons,
        List.intercalate_cons_cons, List.append_assoc]
      rfl

/-- Where spaces are taken out, texts are written like their contents joined. -/
theorem Texts.filter_writtenList_eq {keep : Char → Bool} (hkeep : keep ' ' = false)
    (b : List Char) {ns : List Node} {contents : List String} (h : Texts ns contents) :
    (writtenList b ns).filter keep = (String.join contents).toList.filter keep := by
  rw [filter_writtenList hkeep, String.toList_join, List.filter_flatMap]
  induction h with
  | nil => rfl
  | cons content loc h ih =>
    rw [List.flatMap_cons, List.flatMap_cons, ih]
    rfl

/-- **Spaces and nothing else stand where siblings without source do**, at least one when
text or a symbol follows and neither a symbol nor a parameter goes before. -/
theorem writtenList_run {b : List Char} {run : List Node} (hrun : ∀ x ∈ run, written b x = [])
    (n m : Node) (back : List Node) (hm : m.kind = .text ∨ m.kind = .mathChar) :
    ∃ k, writtenList b (n :: (run ++ m :: back)) =
        written b n ++ List.replicate k ' ' ++ writtenList b (m :: back) ∧
      (n.kind ≠ .mathChar → n.kind ≠ .parameter → 0 < k) := by
  induction run generalizing n with
  | nil =>
    refine ⟨if n.needsSpace m then 1 else 0, ?_, fun hsymbol hparameter => ?_⟩
    · rw [List.nil_append, writtenList_cons, writtenBehind, gap_eq_replicate, List.append_assoc]
    · rw [needsSpace_of_kind hparameter hsymbol hm]
      decide
  | cons x run ih =>
    have hx : written b x = [] := hrun x List.mem_cons_self
    obtain ⟨k, hk, hpos⟩ := ih (fun y hy => hrun y (List.mem_cons_of_mem _ hy)) x
    refine ⟨(if n.needsSpace x then 1 else 0) + k, ?_, fun hsymbol hparameter => ?_⟩
    · rw [List.cons_append, writtenList_cons, writtenBehind, hk, hx, List.nil_append,
        gap_eq_replicate, ← List.replicate_append_replicate, List.append_assoc,
        List.append_assoc]
    · -- a symbol in the run has the space in front of it, and behind anything else the
      -- run goes on as if it started there
      by_cases hkind : x.kind = .mathChar
      · rw [needsSpace_of_kind hparameter hsymbol (.inr hkind)]
        exact Nat.lt_of_lt_of_le Nat.one_pos (Nat.le_add_right 1 k)
      · exact Nat.add_pos_right _ (hpos hkind (kind_ne_parameter_of_written_eq_nil hx))

end Node

/-! ### Control words -/

/-- **A letter does not run into the control word in front of it.**  Where the source of `m`
starts with a letter, it is parted by at least one space from the source of `n`, whatever
that ends with, and by nothing but spaces.  `n` is neither a symbol nor a parameter, and the
siblings between the two, if there are any, have no source. -/
theorem letter_behind_spaces (b : String) (front run back : List Node) {n m : Node}
    (hsymbol : n.kind ≠ .mathChar) (hparameter : n.kind ≠ .parameter)
    (hrun : ∀ x ∈ run, x.source b = "")
    (hletter : ∃ c ∈ (m.source b).toList.head?, c.isAlpha) :
    ∃ before behind k, 0 < k ∧
      sourceAll b (front ++ [n]) = before ++ n.source b ∧
      sourceAll b (m :: back) = m.source b ++ behind ∧
      sourceAll b (front ++ n :: (run ++ m :: back)) =
        before ++ n.source b ++ String.ofList (List.replicate k ' ') ++ m.source b ++ behind := by
  have hempty : ∀ x ∈ run, x.written b.toList = [] := fun x hx =>
    String.ofList_injective (hrun x hx)
  have hm : m.kind = .text ∨ m.kind = .mathChar := by
    obtain ⟨c, hc, halpha⟩ := hletter
    rw [Node.source, String.toList_ofList] at hc
    obtain ⟨cs, hcs⟩ := List.head?_eq_some_iff.mp hc
    exact Node.kind_of_letter hcs halpha
  obtain ⟨k, hk, hpos⟩ := Node.writtenList_run hempty n m back hm
  -- what is written from `n` on, by its own sibling behind it and by the run
  have hfront (ns : List Node) : Node.writtenList b.toList (front ++ n :: ns) =
      Node.writtenBefore b.toList front n ++ Node.writtenList b.toList (n :: ns) := by
    rw [Node.writtenList_append_cons, Node.writtenList_cons, List.append_assoc]
  refine ⟨String.ofList (Node.writtenBefore b.toList front n),
    String.ofList (Node.writtenBehind b.toList m back), k, hpos hsymbol hparameter, ?_, ?_, ?_⟩
  · rw [sourceAll, hfront, Node.writtenList, String.ofList_append]
    rfl
  · rw [sourceAll, Node.writtenList_cons, String.ofList_append]
    rfl
  · rw [sourceAll, hfront, hk, Node.writtenList_cons]
    simp only [String.ofList_append, String.append_assoc]
    rfl

/-- The space behind `\alpha` is written in front of a symbol without source, behind which
the letter follows at once. -/
theorem letter_behind_empty_symbol :
    ∃ before behind k, 0 < k ∧
      sourceAll "" [.text "a" none, .command "alpha" none none] =
        before ++ Node.source "" (.command "alpha" none none) ∧
      sourceAll "" [.mathChar "x" none, .text "y" none] =
        Node.source "" (.mathChar "x" none) ++ behind ∧
      sourceAll "" [.text "a" none, .command "alpha" none none, .mark .ignored none,
          .mathChar "" none, .mathChar "x" none, .text "y" none] =
        before ++ Node.source "" (.command "alpha" none none) ++
          String.ofList (List.replicate k ' ') ++ Node.source "" (.mathChar "x" none) ++ behind :=
  letter_behind_spaces "" [.text "a" none] [.mark .ignored none, .mathChar "" none]
    [.text "y" none] (by decide) (by decide) (by decide +kernel) ⟨'x', by decide +kernel, rfl⟩

end TexTree

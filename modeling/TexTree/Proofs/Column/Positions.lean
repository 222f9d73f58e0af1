/-
TexTree/Proofs/Column/Positions.lean

Groups by their positions.  A reader that keeps the whole text moves a position on in it,
where `braced` hands on the rest of the text:

    bracedAt cs pos        the group that is read at the position pos of the text cs: its
                           content, the position behind it, and whether it is closed

Behind that position stands what `braced` leaves of the text behind `pos` (`braced_drop`).

Main result: a closed group is read exactly where a balanced text stands between two braces,
and it ends at the only position that it can; where no group stands nothing is read, and
everything where it is not closed (`bracedAt_reads_group`).  So the body of a repeat is
shorter than the text that the repeat stands in, and going into bodies comes to an end.

Design.  What stands between two positions is said with the text alone (`GroupStands`), and
once it is known to be the start of `cs.drop pos` (`groupStands_iff`), the facts about `braced`
apply.  There are three cases, and each of them has its answer (`bracedAt_of_groupStands`,
`bracedAt_of_ne`, `bracedAt_unclosed`); the rest is read off the answers (`bracedAt_cases`).
-/
import TexTree.Proofs.Column.Braced

namespace TexTree

/-! ### Positions -/

/-- A group that is read at a position: what stands in it, the position behind it, and whether
it is closed. -/
structure GroupAt where
  content : List Char
  stop : Nat
  closed : Bool
  deriving DecidableEq

/-- The group at a position of a text.  The position behind it is as far on as the reader has
taken characters. -/
def bracedAt (cs : List Char) (pos : Nat) : GroupAt :=
  let group := braced (cs.drop pos)
  ⟨group.content, pos + ((cs.drop pos).length - group.rest.length), group.closed⟩

/-- From the position `pos` up to the position `stop` there stands a balanced text between two
braces. -/
structure GroupStands (cs : List Char) (pos : Nat) (content : List Char) (stop : Nat) : Prop where
  stop_le : stop ≤ cs.length
  slice : (cs.take stop).drop pos = grouped content
  balanced : Balanced content

section Positions

variable {cs content : List Char} {pos stop : Nat}

theorem drop_eq_cons {c : Char} (h : cs[pos]? = some c) : cs.drop pos = c :: cs.drop (pos + 1) := by
  obtain ⟨hpos, rfl⟩ := List.getElem?_eq_some_iff.mp h
  exact List.drop_eq_getElem_cons hpos

/-- A group between two positions is a group at the start of what stands behind the first. -/
theorem groupStands_iff : GroupStands cs pos content stop ↔
    ∃ rest, cs.drop pos = grouped content ++ rest ∧ Balanced content ∧
      stop = pos + (grouped content).length := by
  constructor
  · rintro ⟨hstop, hslice, hbalanced⟩
    have hlength : content.length + 2 = stop - pos := by
      rw [← length_grouped, ← hslice, List.length_drop, List.length_take_of_le hstop]
    refine ⟨(cs.drop pos).drop (stop - pos), ?_, hbalanced, by rw [length_grouped]; omega⟩
    rw [← hslice, List.drop_take, List.take_append_drop]
  · rintro ⟨rest, hdrop, hbalanced, rfl⟩
    have hlength : cs.length - pos = content.length + 2 + rest.length := by
      rw [← List.length_drop, hdrop, List.length_append, length_grouped]
    refine ⟨by rw [length_grouped]; omega, ?_, hbalanced⟩
    rw [List.drop_take, Nat.add_sub_cancel_left, hdrop, List.take_left]

/-! ### The three answers -/

/-- **A group is read whole**, and up to the position behind it. -/
theorem bracedAt_of_groupStands (h : GroupStands cs pos content stop) :
    bracedAt cs pos = ⟨content, stop, true⟩ := by
  obtain ⟨rest, hdrop, hbalanced, rfl⟩ := groupStands_iff.mp h
  simp only [bracedAt, hdrop, braced_grouped hbalanced, List.length_append, Nat.add_sub_cancel]

/-- Where no brace opens nothing is read, and neither is it behind the end of the text. -/
theorem bracedAt_of_ne (h : cs[pos]? ≠ some '\x7b') : bracedAt cs pos = ⟨[], pos, false⟩ := by
  have hstops : Stops (· == '\x7b') (cs.drop pos) := by
    intro c hc
    rw [List.head?_drop] at hc
    exact beq_eq_false_iff_ne.mpr fun heq => h (heq ▸ hc)
  simp only [bracedAt, braced_of_stops hstops, Nat.sub_self, Nat.add_zero]

/-- A group that is not closed is read to the end of the text. -/
theorem bracedAt_unclosed (h : cs[pos]? = some '\x7b')
    (hopen : ∀ content stop, ¬GroupStands cs pos content stop) :
    bracedAt cs pos = ⟨cs.drop (pos + 1), cs.length, false⟩ := by
  obtain ⟨hpos, -⟩ := List.getElem?_eq_some_iff.mp h
  have hdrop := drop_eq_cons h
  have hnever : ∀ w rest, cs.drop (pos + 1) = w ++ '\x7d' :: rest → ¬Balanced w := by
    intro w rest hw hbalanced
    rw [hw, ← grouped_append] at hdrop
    exact hopen w _ (groupStands_iff.mpr ⟨rest, hdrop, hbalanced, rfl⟩)
  have hread : braced (cs.drop pos) = ⟨cs.drop (pos + 1), [], false⟩ := by
    rw [hdrop, braced_unclosed hnever]
  have hend : pos + (cs.drop pos).length = cs.length := by
    rw [List.length_drop]
    omega
  simp only [bracedAt, hread, List.length_nil, Nat.sub_zero, hend]

/-- The reader gives one of the three answers, and each of them where it should. -/
theorem bracedAt_cases (cs : List Char) (pos : Nat) :
    (∃ content stop, GroupStands cs pos content stop ∧
      bracedAt cs pos = ⟨content, stop, true⟩) ∨
    (cs[pos]? ≠ some '\x7b' ∧ bracedAt cs pos = ⟨[], pos, false⟩) ∨
    (cs[pos]? = some '\x7b' ∧ bracedAt cs pos = ⟨cs.drop (pos + 1), cs.length, false⟩) := by
  by_cases hbrace : cs[pos]? = some '\x7b'
  · by_cases hstands : ∃ content stop, GroupStands cs pos content stop
    · obtain ⟨content, stop, h⟩ := hstands
      exact .inl ⟨content, stop, h, bracedAt_of_groupStands h⟩
    · have hopen : ∀ content stop, ¬GroupStands cs pos content stop :=
        fun content stop h => hstands ⟨content, stop, h⟩
      exact .inr (.inr ⟨hbrace, bracedAt_unclosed hbrace hopen⟩)
  · exact .inr (.inl ⟨hbrace, bracedAt_of_ne hbrace⟩)

/-! ### What is read off the answers -/

/-- **A closed group is read exactly where one stands.** -/
theorem bracedAt_eq_closed_iff :
    bracedAt cs pos = ⟨content, stop, true⟩ ↔ GroupStands cs pos content stop := by
  constructor
  · intro h
    rcases bracedAt_cases cs pos with ⟨c, n, hstands, hread⟩ | ⟨-, hread⟩ | ⟨-, hread⟩
    · obtain ⟨rfl, rfl, -⟩ := GroupAt.mk.inj (hread.symm.trans h)
      exact hstands
    · cases hread.symm.trans h
    · cases hread.symm.trans h
  · exact bracedAt_of_groupStands

/-- **Nothing is read exactly where no brace opens**, for from a brace on the brace itself is
read at least. -/
theorem bracedAt_eq_nothing_iff :
    bracedAt cs pos = ⟨[], pos, false⟩ ↔ cs[pos]? ≠ some '\x7b' := by
  refine ⟨fun hread hbrace => ?_, bracedAt_of_ne⟩
  obtain ⟨hpos, -⟩ := List.getElem?_eq_some_iff.mp hbrace
  rcases bracedAt_cases cs pos with ⟨content, stop, -, hclosed⟩ | ⟨hne, -⟩ | ⟨-, hopen⟩
  · cases hclosed.symm.trans hread
  · exact hne hbrace
  · obtain ⟨-, hstop, -⟩ := GroupAt.mk.inj (hopen.symm.trans hread)
    exact absurd hstop (Nat.ne_of_gt hpos)

/-- At a position there stands at most one group. -/
theorem GroupStands.unique (h : GroupStands cs pos content stop) {content' : List Char}
    {stop' : Nat} (h' : GroupStands cs pos content' stop') :
    content = content' ∧ stop = stop' := by
  have hread := (bracedAt_of_groupStands h).symm.trans (bracedAt_of_groupStands h')
  obtain ⟨hcontent, hstop, -⟩ := GroupAt.mk.inj hread
  exact ⟨hcontent, hstop⟩

end Positions

/-- **Positions and rests agree**: the position behind a group is where the rest begins. -/
theorem braced_drop (cs : List Char) (pos : Nat) : braced (cs.drop pos) =
    ⟨(bracedAt cs pos).content, cs.drop (bracedAt cs pos).stop, (bracedAt cs pos).closed⟩ := by
  have htakes : TakesGroup (cs.drop pos) _ (braced (cs.drop pos)).rest :=
    takesGroup_iff.mpr ⟨rfl, rfl⟩
  have hrest : (braced (cs.drop pos)).rest = cs.drop (bracedAt cs pos).stop := by
    rw [bracedAt, ← List.drop_drop]
    exact List.suffix_iff_eq_drop.mp htakes.suffix
  rw [← hrest, bracedAt]

theorem le_stop_bracedAt (cs : List Char) (pos : Nat) : pos ≤ (bracedAt cs pos).stop :=
  Nat.le_add_right _ _

/-- The reader goes on inside the text, or it stays where it is. -/
theorem stop_bracedAt_le_or (cs : List Char) (pos : Nat) :
    (bracedAt cs pos).stop ≤ cs.length ∨ (bracedAt cs pos).stop = pos := by
  rcases bracedAt_cases cs pos with ⟨content, stop, h, hread⟩ | ⟨-, hread⟩ | ⟨-, hread⟩
  · rw [hread]
    exact .inl h.stop_le
  · rw [hread]
    exact .inr rfl
  · rw [hread]
    exact .inl (Nat.le_refl _)

/-- The brace that opens a group is not part of its content. -/
theorem length_content_braced_lt (cs : List Char) :
    (braced ('\x7b' :: cs)).content.length < ('\x7b' :: cs).length := by
  have h := length_content_closing 0 [] cs
  rw [List.length_nil, Nat.zero_add] at h
  rw [braced, if_pos rfl, List.length_cons]
  exact Nat.lt_succ_of_le h

/-! ### Bodies of repeats -/

namespace Preamble

/-- A text is the body of a repeat in another: the second of the groups behind a star. -/
inductive RepeatBody : List Char → List Char → Prop
  | star (front cs : List Char) : RepeatBody (braced (braced cs).rest).content (front ++ '*' :: cs)

theorem RepeatBody.length_lt {body cs : List Char} (h : RepeatBody body cs) :
    body.length < cs.length := by
  obtain ⟨front, cs⟩ := h
  have hbody := length_content_braced (braced cs).rest
  have hcount := length_rest_braced cs
  rw [List.length_append, List.length_cons]
  omega

/-- **Going into the bodies of repeats comes to an end.** -/
theorem wellFounded_repeatBody : WellFounded RepeatBody :=
  Subrelation.wf RepeatBody.length_lt (InvImage.wf List.length Nat.lt_wfRel.wf)

end Preamble

/-- **One group is read at a position, and it is the balanced one.**  The reader finds a closed
group exactly where one stands, which has only one end.  It reads nothing where no brace opens,
behind the end of the text too, and all the rest where the group is not closed.  It never goes
back nor leaves the text, and what it finds behind a brace is shorter than the text from the
brace on, so there is an end to the bodies of repeats inside each other. -/
theorem bracedAt_reads_group (cs : List Char) (pos : Nat) :
    braced (cs.drop pos) =
      ⟨(bracedAt cs pos).content, cs.drop (bracedAt cs pos).stop, (bracedAt cs pos).closed⟩ ∧
    (∀ content stop, bracedAt cs pos = ⟨content, stop, true⟩ ↔
      GroupStands cs pos content stop) ∧
    (∀ content content' stop stop', GroupStands cs pos content stop →
      GroupStands cs pos content' stop' → stop = stop') ∧
    (bracedAt cs pos = ⟨[], pos, false⟩ ↔ cs.length ≤ pos ∨ cs[pos]? ≠ some '\x7b') ∧
    (cs[pos]? = some '\x7b' → (∀ content stop, ¬GroupStands cs pos content stop) →
      bracedAt cs pos = ⟨cs.drop (pos + 1), cs.length, false⟩) ∧
    pos ≤ (bracedAt cs pos).stop ∧
    ((bracedAt cs pos).stop ≤ cs.length ∨ (bracedAt cs pos).stop = pos) ∧
    (cs[pos]? = some '\x7b' → (bracedAt cs pos).content.length < (cs.drop pos).length) ∧
    WellFounded Preamble.RepeatBody := by
  refine ⟨braced_drop cs pos, fun content stop => bracedAt_eq_closed_iff,
    fun content content' stop stop' h h' => (h.unique h').2, ?_, bracedAt_unclosed,
    le_stop_bracedAt cs pos, stop_bracedAt_le_or cs pos, fun h => ?_,
    Preamble.wellFounded_repeatBody⟩
  · have hend : cs.length ≤ pos → cs[pos]? ≠ some '\x7b' := by
      intro hpos h
      rw [List.getElem?_eq_none hpos] at h
      cases h
    rw [or_iff_right_of_imp hend]
    exact bracedAt_eq_nothing_iff
  · rw [bracedAt, drop_eq_cons h]
    exact length_content_braced_lt _

namespace TwoGroups

/-- A text with a group that holds another one, and with a group that is not closed. -/
def text : List Char :=
  ['p', '\x7b', 'a', '\x7b', 'b', '\x7d', '\x7d', '|', '\x7b', 'c', '\x7b', 'd', '\x7d']

/-- The first group ends at its own brace and nowhere else, the second with the text. -/
theorem bracedAt_text :
    GroupStands text 1 ['a', '\x7b', 'b', '\x7d'] 7 ∧
    bracedAt text 1 = ⟨['a', '\x7b', 'b', '\x7d'], 7, true⟩ ∧
    (∀ content stop, GroupStands text 1 content stop → stop = 7) ∧
    (∀ content stop, ¬GroupStands text 8 content stop) ∧
    bracedAt text 8 = ⟨['c', '\x7b', 'd', '\x7d'], 13, false⟩ := by
  obtain ⟨-, hclosed, hunique, -⟩ := bracedAt_reads_group text 1
  obtain ⟨-, hclosed', -, -, hunclosed, -⟩ := bracedAt_reads_group text 8
  have hstands : GroupStands text 1 ['a', '\x7b', 'b', '\x7d'] 7 :=
    ⟨by decide, by decide, by decide⟩
  have hnever : ∀ content stop, ¬GroupStands text 8 content stop := by
    intro content stop h
    have hread : (bracedAt text 8).closed = true := by rw [(hclosed' content stop).mpr h]
    exact absurd hread (by decide)
  exact ⟨hstands, (hclosed _ _).mpr hstands, fun content stop h => hunique _ _ _ _ h hstands,
    hnever, hunclosed (by decide) hnever⟩

end TwoGroups

end TexTree

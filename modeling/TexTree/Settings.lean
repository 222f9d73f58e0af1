/-
TexTree/Settings.lean

Settings written as a list of keys and values, such as the options of a picture
or a program listing:

    width = 3cm, caption="a, b", draft

A part is a key, an equals sign and a value; parts are separated by commas, and a
part without an equals sign or without a key is passed over.  A value may stand
between quotes, and a backslash in front of the same quote makes it part of the
value.  Keys are in lower case, and a later part wins over an earlier one.

    assignments? cs        the keys and values in the order of the text
    Settings.read? s       the settings, in the order of their keys

The one thing that can be wrong is a quoted value that does not end.
-/
import TexTree.Source
import TexTree.Text.LowerCase

namespace TexTree

/-! ### Settings -/

/-- The keys of the entries are in ascending order, so each of them comes once. -/
def Ascending (entries : List (String × String)) : Prop :=
  entries.Pairwise fun a b => a.1 < b.1

/-- Keys and values, in ascending order of the keys. -/
@[ext] structure Settings where
  entries : List (String × String)
  ascending : Ascending entries
  deriving DecidableEq

namespace Settings

/-- No settings. -/
def empty : Settings := ⟨[], List.Pairwise.nil⟩

instance : Inhabited Settings := ⟨empty⟩

/-- Sets a key in a list that is in ascending order. -/
def insertEntry (key value : String) : List (String × String) → List (String × String)
  | [] => [(key, value)]
  | (k, v) :: entries =>
    if key = k then (key, value) :: entries
    else if key < k then (key, value) :: (k, v) :: entries
    else (k, v) :: insertEntry key value entries

theorem mem_insertEntry {key value : String} {e : String × String}
    {entries : List (String × String)} (h : e ∈ insertEntry key value entries) :
    e = (key, value) ∨ e ∈ entries := by
  induction entries with
  | nil => exact Or.inl (by simpa [insertEntry] using h)
  | cons e' entries ih =>
    obtain ⟨k, v⟩ := e'
    simp only [insertEntry] at h
    split at h
    · rcases List.mem_cons.mp h with h | h
      · exact Or.inl h
      · exact Or.inr (List.mem_cons_of_mem _ h)
    · split at h
      · exact List.mem_cons.mp h
      · rcases List.mem_cons.mp h with rfl | h
        · exact Or.inr List.mem_cons_self
        · exact (ih h).imp_right (List.mem_cons_of_mem _)

theorem ascending_insertEntry (key value : String) {entries : List (String × String)}
    (h : Ascending entries) : Ascending (insertEntry key value entries) := by
  induction entries with
  | nil => exact List.pairwise_singleton _ _
  | cons e entries ih =>
    obtain ⟨k, v⟩ := e
    obtain ⟨hk, hrest⟩ := List.pairwise_cons.mp h
    simp only [insertEntry]
    split
    · next heq =>
      subst heq
      exact List.pairwise_cons.mpr ⟨hk, hrest⟩
    · next hne =>
      split
      · next hlt =>
        refine List.pairwise_cons.mpr ⟨fun e he => ?_, h⟩
        rcases List.mem_cons.mp he with rfl | he
        · exact hlt
        · exact String.lt_trans hlt (hk e he)
      · next hlt =>
        refine List.pairwise_cons.mpr ⟨fun e he => ?_, ih hrest⟩
        rcases mem_insertEntry he with rfl | he
        · exact Std.lt_of_le_of_ne (String.not_lt.mp hlt) (Ne.symm hne)
        · exact hk e he

/-- Sets a key, in place of the value it may have. -/
def insert (s : Settings) (key value : String) : Settings :=
  ⟨insertEntry key value s.entries, ascending_insertEntry key value s.ascending⟩

/-- The value of a key. -/
def get? (s : Settings) (key : String) : Option String := s.entries.lookup key

/-- Sets the keys of a list one after the other. -/
def ofList (entries : List (String × String)) : Settings :=
  entries.foldl (fun s e => s.insert e.1 e.2) empty

@[simp] theorem get?_empty (k : String) : empty.get? k = none := rfl

theorem lookup_entry (key value k : String) (entries : List (String × String)) :
    ((key, value) :: entries).lookup k = if k = key then some value else entries.lookup k := by
  by_cases h : k = key
  · simp [h]
  · simp [List.lookup_cons, beq_eq_false_iff_ne.mpr h, h]

theorem lookup_insertEntry (key value k : String) (entries : List (String × String)) :
    (insertEntry key value entries).lookup k =
      if k = key then some value else entries.lookup k := by
  induction entries with
  | nil => simp only [insertEntry, lookup_entry]
  | cons e entries ih =>
    obtain ⟨k', v⟩ := e
    simp only [insertEntry]
    split
    · next hk => subst hk; grind [lookup_entry]
    · split
      · simp only [lookup_entry]
      · grind [lookup_entry]

/-- After a key has been set it has its new value, and the others keep theirs. -/
@[simp] theorem get?_insert (s : Settings) (key value k : String) :
    (s.insert key value).get? k = if k = key then some value else s.get? k :=
  lookup_insertEntry key value k s.entries

end Settings

/-! ### Values -/

/-- A quoted value up to the closing quote `q`, behind what has been read of it
(`seen`, last first), and the text behind the quote. -/
def quotedValue? (q : Char) (seen : List Char) : List Char → Option (List Char × List Char)
  | [] => none
  | [c] => if c = q then some (seen.reverse, []) else none
  | c :: d :: rest =>
    if c = '\\' ∧ d = q then quotedValue? q (q :: seen) rest
    else if c = q then some (seen.reverse, d :: rest)
    else quotedValue? q (c :: seen) (d :: rest)

/-- A character of a value without quotes. -/
def isValueChar (c : Char) : Bool := !(c == ',' || isBlank c)

/-- A character of a key. -/
def isKeyChar (c : Char) : Bool := !(c == '=' || c == ',' || isBlank c)

/-- The value at the start of a text, and the text behind it; none when a quote is
not closed. -/
def value? : List Char → Option (List Char × List Char)
  | [] => some ([], [])
  | c :: rest =>
    if c = '"' ∨ c = '\'' then quotedValue? c [] rest
    else some ((c :: rest).takeWhile isValueChar, (c :: rest).dropWhile isValueChar)

/-! ### Parts -/

/-- The key and the value at the start of a text, if it starts with some, and the
text behind what has been looked at; none when a quote is not closed. -/
def part? (cs : List Char) : Option (Option (String × String) × List Char) :=
  let start := cs.dropWhile isBlank
  let key := start.takeWhile isKeyChar
  match key, (start.dropWhile isKeyChar).dropWhile isBlank with
  | k :: ks, '=' :: rest =>
    (value? (rest.dropWhile isBlank)).map fun (v, rest) =>
      (some (String.ofList (lowerAll (k :: ks)), String.ofList v), rest)
  | _, rest => some (none, rest)

/-- The text behind the next comma. -/
def nextPart (cs : List Char) : List Char := (cs.dropWhile (· != ',')).tail

theorem length_le_of_quotedValue? {q : Char} {seen cs v rest : List Char}
    (h : quotedValue? q seen cs = some (v, rest)) : rest.length ≤ cs.length := by
  fun_induction quotedValue? q seen cs <;> simp_all <;> omega

theorem length_le_of_value? {cs v rest : List Char} (h : value? cs = some (v, rest)) :
    rest.length ≤ cs.length := by
  cases cs with
  | nil => simp_all [value?]
  | cons c cs =>
    simp only [value?] at h
    split at h
    · exact Nat.le_succ_of_le (length_le_of_quotedValue? h)
    · simp only [Option.some.injEq, Prod.mk.injEq] at h
      rw [← h.2]
      exact (List.dropWhile_suffix _).length_le

theorem length_le_of_part? {cs rest : List Char} {e : Option (String × String)}
    (h : part? cs = some (e, rest)) : rest.length ≤ cs.length := by
  have drop (p : Char → Bool) (l : List Char) : (l.dropWhile p).length ≤ l.length :=
    (List.dropWhile_suffix p).length_le
  have h₁ := drop isBlank cs
  have h₂ := drop isKeyChar (cs.dropWhile isBlank)
  have h₃ := drop isBlank ((cs.dropWhile isBlank).dropWhile isKeyChar)
  simp only [part?] at h
  split at h
  · next rest' _ hrest =>
    simp only [Option.map_eq_some_iff] at h
    obtain ⟨⟨v, rest''⟩, hv, he⟩ := h
    obtain rfl : rest'' = rest := congrArg Prod.snd he
    have h₄ := length_le_of_value? hv
    have h₅ := drop isBlank rest'
    rw [hrest, List.length_cons] at h₃
    omega
  · simp only [Option.some.injEq, Prod.mk.injEq] at h
    rw [← h.2]
    omega

theorem length_nextPart_le (cs : List Char) : (nextPart cs).length ≤ cs.length - 1 := by
  have := (List.dropWhile_suffix (l := cs) (· != ',')).length_le
  simp only [nextPart, List.length_tail]
  omega

/-! ### Reading settings -/

/-- The keys and values in the order of the text; none when a quote is not closed. -/
def assignments? (cs : List Char) : Option (List (String × String)) :=
  match cs with
  | [] => some []
  | c :: cs =>
    match _h : part? (c :: cs) with
    | none => none
    | some (none, rest) => assignments? (nextPart rest)
    | some (some e, rest) => (assignments? (nextPart rest)).map (e :: ·)
termination_by cs.length
decreasing_by
  all_goals
    have h₁ := length_le_of_part? _h
    have h₂ := length_nextPart_le rest
    simp only [List.length_cons] at h₁ ⊢
    omega

/-- What can be wrong with settings. -/
inductive SettingsError where
  | unclosedQuote
  deriving DecidableEq

/-- The error in words. -/
def SettingsError.message : SettingsError → String
  | .unclosedQuote => "quoted value is not closed"

namespace Settings

/-- The settings that a text gives. -/
def parse? (cs : List Char) : Except SettingsError Settings :=
  match assignments? cs with
  | none => .error .unclosedQuote
  | some entries => .ok (ofList entries)

/-- The settings that the content of an argument gives. -/
def ofNodes? (ns : List Node) : Except SettingsError Settings := parse? (Node.writtenList [] ns)

end Settings

end TexTree

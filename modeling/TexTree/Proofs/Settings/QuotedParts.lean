/-
TexTree/Proofs/Settings/QuotedParts.lean

Settings that are written with quotes.  A key, an equals sign and a value between
quotes, with a backslash in front of each such quote in the value, give the key in
lower case and the value:

    part? (key = "value" , rest)  =  the key and the value, and what is behind the quote

so a list of such parts, with commas between them and blanks about their pieces, is
read back whole (`parse?_quotedText`).  The value may hold whatever separates parts
elsewhere; only a backslash at its end would take the closing quote for its own.

Design.  The reader knows no escape for the backslash itself, so a quoted value is not
read character by character: whether a backslash is dropped hangs on the character
behind it.  An escaped value followed by the closing quote never shows a quote behind
a backslash of the value (`quotedValue?_escape`), because there the backslash that was
put in comes first.  What stands in front of the value, up to the opening quote, is a
structure of its own (`Opening`): it decides what the reader does with any text behind
it (`part?_opening`), closed or not.
-/
import TexTree.Proofs.Settings.Commas
import TexTree.Proofs.Text.LowerCase

namespace TexTree

namespace Settings

/-! ### Up to the opening quote -/

/-- A key, an equals sign and an opening quote, with blanks in front of each of them. -/
structure Opening where
  lead : List Char := []
  key : List Char
  behindKey : List Char := []
  behindEquals : List Char := []
  quote : Char := '"'
  blank_lead : ∀ c ∈ lead, isBlank c := by exact List.all_eq_true.mp (by decide)
  key_ne_nil : key ≠ [] := by decide
  isKeyChar_key : ∀ c ∈ key, isKeyChar c := by exact List.all_eq_true.mp (by decide)
  blank_behindKey : ∀ c ∈ behindKey, isBlank c := by exact List.all_eq_true.mp (by decide)
  blank_behindEquals : ∀ c ∈ behindEquals, isBlank c := by exact List.all_eq_true.mp (by decide)
  quote_eq : quote = '"' ∨ quote = '\'' := by decide

namespace Opening

/-- The opening as a text. -/
def chars (o : Opening) : List Char :=
  o.lead ++ (o.key ++ (o.behindKey ++ '=' :: (o.behindEquals ++ [o.quote])))

/-- The name under which the value is set: the key, letter by letter in lower case. -/
def name (o : Opening) : String := String.ofList (o.key.map lower)

/-- Below 128 the lower-case letters are those of the standard library. -/
theorem name_eq_toLower (o : Opening) (h : ∀ c ∈ o.key, c.toNat < 0x80) :
    o.name = String.ofList (o.key.map Char.toLower) := by
  rw [name, List.map_congr_left fun c hc => lower_of_lt (h c hc)]

theorem quote_ne_backslash (o : Opening) : o.quote ≠ '\\' := by
  rcases o.quote_eq with h | h <;> rw [h] <;> decide

theorem not_isBlank_quote (o : Opening) : isBlank o.quote = false := by
  rcases o.quote_eq with h | h <;> rw [h] <;> decide

end Opening

theorem not_isBlank_of_isKeyChar {c : Char} (h : isKeyChar c) : isBlank c = false := by
  rw [isKeyChar, Bool.not_eq_true', Bool.or_eq_false_iff] at h
  exact h.2

theorem not_isKeyChar_of_isBlank {c : Char} (h : isBlank c) : isKeyChar c = false := by
  rw [isKeyChar, h, Bool.or_true, Bool.not_true]

/-- Behind a key stand blanks or the equals sign. -/
theorem stops_isKeyChar_blanks {bs : List Char} (h : ∀ c ∈ bs, isBlank c) (t : List Char) :
    Stops isKeyChar (bs ++ '=' :: t) := by
  cases bs with
  | nil => exact stops_cons.mpr rfl
  | cons c bs => exact stops_cons.mpr (not_isKeyChar_of_isBlank (h c List.mem_cons_self))

/-- **An opening has the value behind it read as a quoted one**, and set under its name. -/
theorem part?_opening (o : Opening) (body : List Char) :
    part? (o.chars ++ body) = (quotedValue? o.quote [] body).map fun (v, rest) =>
      (some (o.name, String.ofList v), rest) := by
  have hchars : o.chars ++ body =
      o.lead ++ (o.key ++ (o.behindKey ++ '=' :: (o.behindEquals ++ o.quote :: body))) := by
    simp [Opening.chars]
  have hstart : Stops isBlank
      (o.key ++ (o.behindKey ++ '=' :: (o.behindEquals ++ o.quote :: body))) := by
    obtain ⟨k, ks, hkey⟩ := List.exists_cons_of_ne_nil o.key_ne_nil
    rw [hkey, List.cons_append]
    exact stops_cons.mpr (not_isBlank_of_isKeyChar (o.isKeyChar_key k (hkey ▸ List.mem_cons_self)))
  have hbehind := stops_isKeyChar_blanks o.blank_behindKey (o.behindEquals ++ o.quote :: body)
  have hequals : Stops isBlank ('=' :: (o.behindEquals ++ o.quote :: body)) := stops_cons.mpr rfl
  have hquote : Stops isBlank (o.quote :: body) := stops_cons.mpr o.not_isBlank_quote
  rw [part?, hchars]
  simp only [dropWhile_append_stops o.blank_lead hstart,
    takeWhile_append_stops o.isKeyChar_key hbehind, dropWhile_append_stops o.isKeyChar_key hbehind,
    dropWhile_append_stops o.blank_behindKey hequals]
  obtain ⟨k, ks, hkey⟩ := List.exists_cons_of_ne_nil o.key_ne_nil
  simp only [hkey, dropWhile_append_stops o.blank_behindEquals hquote]
  rw [value?, if_pos o.quote_eq, Opening.name, hkey, lowerAll]

/-! ### Escaped values -/

/-- A value with a backslash in front of every quote `q` in it. -/
def escape (q : Char) (value : List Char) : List Char :=
  value.flatMap fun c => if c = q then ['\\', q] else [c]

theorem escape_cons_self (q : Char) (value : List Char) :
    escape q (q :: value) = '\\' :: q :: escape q value := by
  simp [escape]

theorem escape_cons_of_ne {q c : Char} (h : c ≠ q) (value : List Char) :
    escape q (c :: value) = c :: escape q value := by
  simp [escape, h]

/-- What is escaped does not start with a quote. -/
theorem exists_escape_cons {q : Char} (hq : q ≠ '\\') (c : Char) (value : List Char) :
    ∃ d ds, escape q (c :: value) = d :: ds ∧ d ≠ q := by
  by_cases hc : c = q
  · exact ⟨'\\', q :: escape q value, hc ▸ escape_cons_self q value, hq.symm⟩
  · exact ⟨c, escape q value, escape_cons_of_ne hc value, hc⟩

/-- **An escaped value is read back** up to the closing quote, unless it ends with a
backslash. -/
theorem quotedValue?_escape {q : Char} (hq : q ≠ '\\') {value : List Char}
    (hlast : value.getLast? ≠ some '\\') (seen rest : List Char) :
    quotedValue? q seen (escape q value ++ q :: rest) = some (seen.reverse ++ value, rest) := by
  induction value generalizing seen with
  | nil =>
    show quotedValue? q seen (q :: rest) = _
    cases rest with
    | nil => rw [quotedValue?, if_pos rfl, List.append_nil]
    | cons d rest => rw [quotedValue?, if_neg fun h => hq h.1, if_pos rfl, List.append_nil]
  | cons c value ih =>
    rw [List.getLast?_cons] at hlast
    have hlast' : value.getLast? ≠ some '\\' := by
      intro h
      rw [h] at hlast
      exact hlast rfl
    by_cases hc : c = q
    · subst hc
      rw [escape_cons_self, List.cons_append, List.cons_append, quotedValue?, if_pos ⟨rfl, rfl⟩,
        ih hlast', List.reverse_cons, List.append_assoc, List.singleton_append]
    · -- the reader looks one character further: at the rest of the value or at the closing quote
      obtain ⟨d, ds, hnext⟩ : ∃ d ds, escape q value ++ q :: rest = d :: ds :=
        List.exists_cons_of_ne_nil (List.append_ne_nil_of_right_ne_nil _ (List.cons_ne_nil _ _))
      have hplain : ¬(c = '\\' ∧ d = q) := by
        rintro ⟨rfl, rfl⟩
        cases value with
        | nil => exact hlast rfl
        | cons e value =>
          obtain ⟨d', ds', hescape, hne⟩ := exists_escape_cons hq e value
          rw [hescape, List.cons_append] at hnext
          exact hne (List.cons.inj hnext).1
      have hread := ih hlast' (c :: seen)
      rw [hnext] at hread
      rw [escape_cons_of_ne hc, List.cons_append, hnext, quotedValue?, if_neg hplain, if_neg hc,
        hread, List.reverse_cons, List.append_assoc, List.singleton_append]

/-! ### Quoted parts -/

/-- A part with a quoted value and blanks behind it. -/
structure QuotedPart extends Opening where
  value : List Char
  trail : List Char := []
  getLast?_value : value.getLast? ≠ some '\\' := by decide
  blank_trail : ∀ c ∈ trail, isBlank c := by exact List.all_eq_true.mp (by decide)

namespace QuotedPart

/-- The part as a text. -/
def text (p : QuotedPart) : List Char :=
  p.chars ++ (escape p.quote p.value ++ p.quote :: p.trail)

/-- What the part sets. -/
def entry (p : QuotedPart) : String × String := (p.name, String.ofList p.value)

end QuotedPart

/-- Behind a part without a comma there is nothing. -/
theorem nextPart_of_forall_ne {cs : List Char} (h : ∀ c ∈ cs, c ≠ ',') : nextPart cs = [] := by
  have hall : ∀ c ∈ cs, (c != ',') = true := fun c hc => bne_iff_ne.mpr (h c hc)
  rw [nextPart, List.dropWhile_eq_nil_iff.mpr hall, List.tail_nil]

theorem assignments?_text (p : QuotedPart) : assignments? p.text = some [p.entry] := by
  have hpart : part? p.text = some (some p.entry, p.trail) := by
    rw [QuotedPart.text, part?_opening,
      quotedValue?_escape p.quote_ne_backslash p.getLast?_value]
    rfl
  have hcomma : ∀ c ∈ p.trail, c ≠ ',' := by
    rintro c hc rfl
    exact absurd (p.blank_trail ',' hc) (by decide)
  rw [assignments?_of_part? hpart, nextPart_of_forall_ne hcomma, assignments?_nil]
  rfl

/-- Quoted parts with commas between them. -/
def quotedText (ps : List QuotedPart) : List Char := [','].intercalate (ps.map QuotedPart.text)

/-- Each part gives its entry, in their order. -/
theorem assignments?_quotedText (ps : List QuotedPart) :
    assignments? (quotedText ps) = some (ps.map QuotedPart.entry) := by
  induction ps with
  | nil => exact assignments?_nil
  | cons p ps ih =>
    cases ps with
    | nil =>
      rw [quotedText, List.map_singleton, List.intercalate_singleton]
      exact assignments?_text p
    | cons p' ps =>
      have hcons : quotedText (p :: p' :: ps) = p.text ++ ',' :: quotedText (p' :: ps) := by
        rw [quotedText, List.map_cons, List.map_cons, List.intercalate_cons_cons,
          List.append_assoc, List.singleton_append]
        rfl
      rw [hcons, assignments?_append_comma (assignments?_text p), ih]
      rfl

/-! ### Reading back -/

/-- A key has the value of its last entry. -/
theorem get?_ofList (es : List (String × String)) (k : String) :
    (ofList es).get? k = ((es.filter fun e => e.1 = k).getLast?).map Prod.snd := by
  induction es with
  | nil => rfl
  | cons e es ih =>
    have hone : (ofList [e]).get? k = if k = e.1 then some e.2 else none :=
      get?_insert empty e.1 e.2 k
    rw [← List.singleton_append, get?_ofList_append, ih, hone, List.singleton_append,
      List.filter_cons]
    by_cases hk : k = e.1
    · rw [if_pos hk, if_pos (by simp [hk]), List.getLast?_cons]
      cases (es.filter fun e => e.1 = k).getLast? <;> rfl
    · rw [if_neg hk, if_neg (by simpa using Ne.symm hk), Option.or_none]

/-- **Settings written with quotes are read back.**  Their keys are the names of the parts,
in lower case, and each has the value of the last part of that name. -/
theorem parse?_quotedText (ps : List QuotedPart) :
    ∃ r, parse? (Utf8.decode (Utf8.bytes (String.ofList (quotedText ps)))) = .ok r ∧
      (∀ k, r.get? k =
        ((ps.filter fun p => p.name = k).getLast?).map fun p => String.ofList p.value) ∧
      ∀ p ∈ ps, (∀ c ∈ p.key, c.toNat < 0x80) →
        p.name = String.ofList (p.key.map Char.toLower) := by
  refine ⟨ofList (ps.map QuotedPart.entry), ?_, fun k => ?_, fun p _ => p.name_eq_toLower⟩
  · rw [Utf8.decode_bytes, String.toList_ofList]
    exact parse?_eq_ok_iff.mpr ⟨_, assignments?_quotedText ps, rfl⟩
  · rw [get?_ofList, List.filter_map, List.getLast?_map, Option.map_map]
    rfl

/-- Three parts, the first and the last of one name.  The value of the second one holds what
separates parts elsewhere, both quotes, and a backslash in front of neither. -/
def quotedParts : List QuotedPart := [
  { key := ['T', 'i', 't', 'l', 'e'], value := ['a'] },
  { lead := [' '], key := ['\u00c4', '"'], behindKey := [' '], behindEquals := ['\t'],
    quote := '\'', value := ['a', '\'', ',', '"', '\\', 'b'], trail := ['\n'] },
  { key := ['T', 'I', 'T', 'L', 'E'], value := [] }]

/-- The values are found under the keys in lower case, and under no others. -/
theorem get?_quotedParts :
    quotedText quotedParts = "Title=\"a\", \u00c4\" =\t'a\\',\"\\b'\n,TITLE=\"\"".toList ∧
    ∃ r, parse? (Utf8.decode (Utf8.bytes (String.ofList (quotedText quotedParts)))) = .ok r ∧
      r.get? "title" = some "" ∧ r.get? "\u00e4\"" = some "a',\"\\b" ∧
      r.get? "Title" = none ∧ r.get? "TITLE" = none := by
  obtain ⟨r, hr, hget, -⟩ := parse?_quotedText quotedParts
  refine ⟨by decide +kernel, r, hr, ?_, ?_, ?_, ?_⟩ <;> rw [hget] <;> decide +kernel

end Settings

end TexTree

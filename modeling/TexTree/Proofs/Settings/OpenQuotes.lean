/-
TexTree/Proofs/Settings/OpenQuotes.lean

What can be wrong with settings.  Reading them fails exactly when some part of the
text opens a quote that nothing behind it closes:

    raw  =  p, key = "rest        with every quote in rest behind a backslash

where settings can be read of `p`, or the part is the first (`parse?_fails_iff`).
Quotes anywhere else, in a key, inside a value without quotes or behind a value that
has ended, are characters like any other.

Design.  A quoted value is closed by the first quote that no backslash stands in front
of (`closing_of_quotedValue?`), so none is left open by all quotes being escaped
(`quotedValue?_eq_none_iff`).  Hence a part fails when it has the form above, and that
form is all that can make it fail (`part?_eq_none_iff`).  When a part succeeds, the text
up to the comma behind it succeeds on its own (`exists_of_part?`), since the quote that
closes its value stands in front of that comma; so the part that fails is found by going
from comma to comma (`hasOpenPart_of_assignments?`).
-/
import TexTree.Proofs.Settings.QuotedParts

namespace TexTree

namespace Settings

/-! ### Quotes behind a backslash -/

/-- Every quote `q` has a backslash right in front of it. -/
def AllEscaped (q : Char) (cs : List Char) : Prop :=
  ∀ front behind, cs = front ++ q :: behind → front.getLast? = some '\\'

theorem allEscaped_nil (q : Char) : AllEscaped q [] := by
  intro front behind h
  simp at h

/-- A character in front that is no quote changes nothing. -/
theorem AllEscaped.cons {q c : Char} {cs : List Char} (hc : c ≠ q) (h : AllEscaped q cs) :
    AllEscaped q (c :: cs) := by
  intro front behind hcs
  rcases List.cons_eq_append_iff.mp hcs with ⟨-, hcs'⟩ | ⟨front', rfl, hcs'⟩
  · exact absurd (List.cons.inj hcs').1.symm hc
  · rw [List.getLast?_cons, h front' behind hcs']
    rfl

/-- Neither does an escaped quote. -/
theorem AllEscaped.escaped {q : Char} (hq : q ≠ '\\') {cs : List Char} (h : AllEscaped q cs) :
    AllEscaped q ('\\' :: q :: cs) := by
  intro front behind hcs
  rcases List.cons_eq_append_iff.mp hcs with ⟨-, hcs'⟩ | ⟨front', rfl, hcs'⟩
  · exact absurd (List.cons.inj hcs').1 hq
  rcases List.cons_eq_append_iff.mp hcs' with ⟨rfl, -⟩ | ⟨front'', rfl, hcs''⟩
  · rfl
  · rw [List.getLast?_cons, List.getLast?_cons, h front'' behind hcs'']
    rfl

/-- A value that is not closed has all its quotes escaped. -/
theorem allEscaped_of_quotedValue? {q : Char} (hq : q ≠ '\\') {seen cs : List Char}
    (h : quotedValue? q seen cs = none) : AllEscaped q cs := by
  fun_induction quotedValue? q seen cs with
  | case1 => exact allEscaped_nil q
  | case2 => cases h
  | case3 seen c hc => exact (allEscaped_nil q).cons hc
  | case4 seen c d rest hescaped ih =>
    obtain ⟨rfl, rfl⟩ := hescaped
    exact (ih h).escaped hq
  | case5 => cases h
  | case6 seen c d rest hplain hc ih => exact (ih h).cons hc

/-- The quote that closes a value has no backslash in front of it. -/
theorem closing_of_quotedValue? {q : Char} (hq : q ≠ '\\') {seen cs v rest : List Char}
    (h : quotedValue? q seen cs = some (v, rest)) :
    ∃ front, cs = front ++ q :: rest ∧ front.getLast? ≠ some '\\' := by
  fun_induction quotedValue? q seen cs with
  | case1 => cases h
  | case2 seen =>
    obtain ⟨-, rfl⟩ : seen.reverse = v ∧ [] = rest := by simpa using h
    exact ⟨[], rfl, by simp⟩
  | case3 => cases h
  | case4 seen c d rest' hescaped ih =>
    obtain ⟨rfl, rfl⟩ := hescaped
    obtain ⟨front, rfl, hlast⟩ := ih h
    refine ⟨'\\' :: d :: front, rfl, ?_⟩
    -- behind the escaped quote there is that quote or what has been read since
    rw [List.getLast?_cons, List.getLast?_cons, Option.getD_some]
    cases hfront : front.getLast? with
    | none => simpa using hq
    | some x => simpa [hfront] using hlast
  | case5 seen d rest' hplain =>
    obtain ⟨-, rfl⟩ : seen.reverse = v ∧ d :: rest' = rest := by simpa using h
    exact ⟨[], rfl, by simp⟩
  | case6 seen c d rest' hplain hc ih =>
    obtain ⟨front, hfront, hlast⟩ := ih h
    refine ⟨c :: front, by rw [hfront]; rfl, ?_⟩
    cases front with
    | nil =>
      obtain ⟨rfl, -⟩ := List.cons.inj hfront
      intro hbackslash
      exact hplain ⟨by simpa using hbackslash, rfl⟩
    | cons x front => simpa [List.getLast?_cons] using hlast

/-- **A value is left open exactly when all its quotes are escaped.** -/
theorem quotedValue?_eq_none_iff {q : Char} (hq : q ≠ '\\') (seen cs : List Char) :
    quotedValue? q seen cs = none ↔ AllEscaped q cs := by
  constructor
  · exact allEscaped_of_quotedValue? hq
  · intro h
    cases hread : quotedValue? q seen cs with
    | none => rfl
    | some closed =>
      obtain ⟨front, hcs, hlast⟩ := closing_of_quotedValue? hq hread
      exact absurd (h front closed.2 hcs) hlast

/-! ### The part that opens it -/

/-- The text opens a quoted value and does not close it. -/
def LeavesQuoteOpen (cs : List Char) : Prop :=
  ∃ (o : Opening) (rest : List Char), cs = o.chars ++ rest ∧ AllEscaped o.quote rest

theorem value?_eq_none_iff {cs : List Char} :
    value? cs = none ↔
      ∃ q rest, cs = q :: rest ∧ (q = '"' ∨ q = '\'') ∧ quotedValue? q [] rest = none := by
  cases cs with
  | nil => simp [value?]
  | cons c cs =>
    rw [value?]
    split
    · next hq =>
      constructor
      · exact fun h => ⟨c, cs, rfl, hq, h⟩
      · rintro ⟨q, rest, hcs, -, h⟩
        obtain ⟨rfl, rfl⟩ := List.cons.inj hcs
        exact h
    · next hq =>
      constructor
      · intro h
        cases h
      · rintro ⟨q, rest, hcs, hq', -⟩
        exact absurd ((List.cons.inj hcs).1 ▸ hq') hq

/-- A key, an equals sign and a quote that are found where a part is looked for are an
opening. -/
theorem exists_opening {cs rest body : List Char} {q : Char}
    (hkey : (cs.dropWhile isBlank).takeWhile isKeyChar ≠ [])
    (hequals : ((cs.dropWhile isBlank).dropWhile isKeyChar).dropWhile isBlank = '=' :: rest)
    (hbody : rest.dropWhile isBlank = q :: body) (hq : q = '"' ∨ q = '\'') :
    ∃ o : Opening, o.quote = q ∧ cs = o.chars ++ body := by
  refine ⟨{
    lead := cs.takeWhile isBlank
    key := (cs.dropWhile isBlank).takeWhile isKeyChar
    behindKey := ((cs.dropWhile isBlank).dropWhile isKeyChar).takeWhile isBlank
    behindEquals := rest.takeWhile isBlank
    quote := q
    blank_lead := fun c hc => List.mem_takeWhile_imp hc
    key_ne_nil := hkey
    isKeyChar_key := fun c hc => List.mem_takeWhile_imp hc
    blank_behindKey := fun c hc => List.mem_takeWhile_imp hc
    blank_behindEquals := fun c hc => List.mem_takeWhile_imp hc
    quote_eq := hq }, rfl, ?_⟩
  have hrest : rest.takeWhile isBlank ++ q :: body = rest := by
    rw [← hbody, List.takeWhile_append_dropWhile]
  simp only [Opening.chars, List.append_assoc, List.cons_append, List.nil_append, hrest]
  rw [← hequals, List.takeWhile_append_dropWhile, List.takeWhile_append_dropWhile,
    List.takeWhile_append_dropWhile]

/-- **A part fails exactly when it leaves a quote open.** -/
theorem part?_eq_none_iff {cs : List Char} : part? cs = none ↔ LeavesQuoteOpen cs := by
  constructor
  · intro h
    rw [part?] at h
    split at h
    · next k ks rest hkey hequals =>
      obtain ⟨q, body, hbody, hq, hopen⟩ := value?_eq_none_iff.mp (Option.map_eq_none_iff.mp h)
      obtain ⟨o, rfl, hcs⟩ := exists_opening (hkey ▸ List.cons_ne_nil k ks) hequals hbody hq
      exact ⟨o, body, hcs, (quotedValue?_eq_none_iff o.quote_ne_backslash [] body).mp hopen⟩
    · cases h
  · rintro ⟨o, rest, rfl, hrest⟩
    rw [part?_opening, Option.map_eq_none_iff]
    exact (quotedValue?_eq_none_iff o.quote_ne_backslash [] rest).mpr hrest

/-! ### From comma to comma -/

/-- What a value leaves is the end of the text. -/
theorem suffix_of_value? {cs v rest : List Char} (h : value? cs = some (v, rest)) :
    rest <:+ cs := by
  cases cs with
  | nil =>
    obtain ⟨-, rfl⟩ : [] = v ∧ [] = rest := by simpa [value?] using h
    exact List.suffix_refl _
  | cons c cs =>
    rw [value?] at h
    split at h
    · next hc =>
      have hne : c ≠ '\\' := by rcases hc with rfl | rfl <;> decide
      obtain ⟨front, rfl, -⟩ := closing_of_quotedValue? hne h
      exact ⟨c :: front ++ [c], by simp⟩
    · obtain ⟨-, rfl⟩ : (c :: cs).takeWhile isValueChar = v ∧
          (c :: cs).dropWhile isValueChar = rest := by simpa using h
      exact List.dropWhile_suffix _

/-- What a part leaves is the end of the text. -/
theorem suffix_of_part? {cs rest : List Char} {e : Option (String × String)}
    (h : part? cs = some (e, rest)) : rest <:+ cs := by
  have hstart : ((cs.dropWhile isBlank).dropWhile isKeyChar).dropWhile isBlank <:+ cs :=
    (List.dropWhile_suffix _).trans ((List.dropWhile_suffix _).trans (List.dropWhile_suffix _))
  rw [part?] at h
  split at h
  · next k ks rest' _ hequals =>
    obtain ⟨⟨v, r⟩, hv, he⟩ := Option.map_eq_some_iff.mp h
    obtain ⟨-, rfl⟩ := Prod.mk.inj he
    rw [hequals] at hstart
    exact (suffix_of_value? hv).trans
      ((List.dropWhile_suffix _).trans ((List.suffix_cons _ _).trans hstart))
  · obtain ⟨-, rfl⟩ := Prod.mk.inj (Option.some.inj h)
    exact hstart

/-- A part that leaves a comma and all that is behind it is the same part without them. -/
theorem part?_of_append_comma {cs rest t : List Char} {e : Option (String × String)}
    (h : part? (cs ++ ',' :: t) = some (e, rest ++ ',' :: t)) : part? cs = some (e, rest) := by
  cases hread : part? cs with
  | some part =>
    obtain ⟨e', rest'⟩ := part
    rw [part?_append_comma hread t] at h
    obtain ⟨rfl, hrest⟩ := Prod.mk.inj (Option.some.inj h)
    rw [List.append_cancel_right hrest]
  | none =>
    -- the closing quote stands in front of the comma, so the value is closed without it
    obtain ⟨o, body, rfl, hbody⟩ := part?_eq_none_iff.mp hread
    rw [List.append_assoc, part?_opening] at h
    obtain ⟨⟨v, r⟩, hv, he⟩ := Option.map_eq_some_iff.mp h
    obtain ⟨-, rfl⟩ := Prod.mk.inj he
    obtain ⟨front, hfront, hlast⟩ := closing_of_quotedValue? o.quote_ne_backslash hv
    have hclosed : body = front ++ o.quote :: rest := by
      have hbehind : body ++ ',' :: t = front ++ o.quote :: rest ++ ',' :: t := by
        rw [hfront, List.append_assoc, List.cons_append]
      exact List.append_cancel_right hbehind
    exact absurd (hbody front rest hclosed) hlast

/-- A text that goes on with a part has a comma in front of it. -/
theorem eq_append_nextPart {cs : List Char} (h : nextPart cs ≠ []) :
    cs = cs.takeWhile (· != ',') ++ ',' :: nextPart cs := by
  have hhead := List.head?_dropWhile_not (· != ',') cs
  rw [nextPart] at h ⊢
  cases hdrop : cs.dropWhile (· != ',') with
  | nil =>
    rw [hdrop] at h
    exact absurd rfl h
  | cons c rest =>
    rw [hdrop] at hhead
    have hc : c = ',' := by simpa using hhead
    calc cs = cs.takeWhile (· != ',') ++ cs.dropWhile (· != ',') :=
          List.takeWhile_append_dropWhile.symm
      _ = cs.takeWhile (· != ',') ++ ',' :: (c :: rest).tail := by
          rw [hdrop, hc, List.tail_cons]

/-- The text up to the comma behind a part can be read on its own. -/
theorem exists_of_part? {cs rest : List Char} {e : Option (String × String)}
    (h : part? cs = some (e, rest)) (hnext : nextPart rest ≠ []) :
    ∃ front, cs = front ++ ',' :: nextPart rest ∧ assignments? front = some e.toList := by
  obtain ⟨used, hused⟩ := suffix_of_part? h
  have hcomma := eq_append_nextPart hnext
  have hnone : nextPart (rest.takeWhile (· != ',')) = [] := by
    refine nextPart_of_forall_ne fun c hc => ?_
    have hne := List.mem_takeWhile_imp hc
    exact bne_iff_ne.mp hne
  have hcs : cs = (used ++ rest.takeWhile (· != ',')) ++ ',' :: nextPart rest := by
    rw [List.append_assoc, ← hcomma, hused]
  have hpart : part? (used ++ rest.takeWhile (· != ',')) =
      some (e, rest.takeWhile (· != ',')) := by
    refine part?_of_append_comma (t := nextPart rest) ?_
    rw [← hcs, ← hcomma]
    exact h
  refine ⟨_, hcs, ?_⟩
  rw [assignments?_of_part? hpart, hnone, assignments?_nil, Option.map_some, List.append_nil]

/-- A text that fails when it is read as a part fails. -/
theorem assignments?_eq_none_of_part? {cs : List Char} (h : part? cs = none) :
    assignments? cs = none := by
  fun_cases assignments? cs with
  | case1 => cases h
  | case2 => rfl
  | case3 c cs rest hpart => cases hpart.symm.trans h
  | case4 c cs e rest hpart => cases hpart.symm.trans h

/-- A part of the text leaves a quote open: the first one, or one behind a comma up to which
the text can be read. -/
def HasOpenPart (cs : List Char) : Prop :=
  ∃ p s, cs = p ++ s ∧ (p = [] ∨ ∃ p' es, p = p' ++ [','] ∧ assignments? p' = some es) ∧
    LeavesQuoteOpen s

/-- A part that can be read may be put in front. -/
theorem HasOpenPart.of_nextPart {cs rest : List Char} {e : Option (String × String)}
    (hpart : part? cs = some (e, rest)) (hnext : nextPart rest ≠ [])
    (h : HasOpenPart (nextPart rest)) : HasOpenPart cs := by
  obtain ⟨p, s, hps, hp, hs⟩ := h
  obtain ⟨front, hcs, hfront⟩ := exists_of_part? hpart hnext
  refine ⟨front ++ ',' :: p, s, ?_, .inr ?_, hs⟩
  · rw [hcs, hps, List.append_assoc, List.cons_append]
  · rcases hp with rfl | ⟨p', es, rfl, hp'⟩
    · exact ⟨front, _, rfl, hfront⟩
    · refine ⟨front ++ ',' :: p', e.toList ++ es, ?_, ?_⟩
      · rw [List.append_assoc, List.cons_append]
      · rw [assignments?_append_comma hfront, hp']
        rfl

/-- **A text that cannot be read has a part that leaves a quote open.** -/
theorem hasOpenPart_of_assignments? {cs : List Char} (h : assignments? cs = none) :
    HasOpenPart cs := by
  have hne : ∀ {t : List Char}, assignments? t = none → t ≠ [] := by
    rintro t ht rfl
    rw [assignments?_nil] at ht
    cases ht
  -- the induction is over the parts that can be read
  fun_induction assignments? cs with
  | case1 => cases h
  | case2 c cs hnone => exact ⟨[], c :: cs, rfl, .inl rfl, part?_eq_none_iff.mp hnone⟩
  | case3 c cs rest hpart ih => exact .of_nextPart hpart (hne h) (ih h)
  | case4 c cs e rest hpart ih =>
    have hnone := Option.map_eq_none_iff.mp h
    exact .of_nextPart hpart (hne hnone) (ih hnone)

/-! ### Texts as bytes -/

/-- **Reading settings fails exactly on a quoted value that is not closed.**  A part of the
text opens it: the first one, or one behind a comma up to which settings can be read; and
every quote behind the opening one has a backslash in front of it.  Texts are bytes, and
need not be well-formed. -/
theorem parse?_fails_iff (raw : List UInt8) :
    parse? (Utf8.decode raw) = .error .unclosedQuote ↔
      ∃ p s, raw = p ++ s ∧
        (p = [] ∨ ∃ p' m, p = p' ++ Utf8.bytes "," ∧ parse? (Utf8.decode p') = .ok m) ∧
        LeavesQuoteOpen (Utf8.decode s) := by
  rw [parse?_eq_error_iff]
  constructor
  · intro h
    obtain ⟨p, s, hraw, hp, hs⟩ := hasOpenPart_of_assignments? h
    rcases hp with rfl | ⟨p', es, rfl, hp'⟩
    · exact ⟨[], raw, rfl, .inl rfl, hraw ▸ hs⟩
    · rw [List.append_assoc, List.singleton_append] at hraw
      obtain ⟨front, behind, rfl, rfl, rfl⟩ := Utf8.exists_of_decode_eq_append (by decide) hraw
      refine ⟨front ++ Utf8.bytes ",", behind, ?_, .inr ?_, hs⟩
      · rw [List.append_assoc]
        rfl
      · exact ⟨front, ofList es, rfl, parse?_eq_ok_iff.mpr ⟨es, hp', rfl⟩⟩
  · rintro ⟨p, s, rfl, hp, hs⟩
    have hnone := assignments?_eq_none_of_part? (part?_eq_none_iff.mpr hs)
    rcases hp with rfl | ⟨p', m, rfl, hp'⟩
    · exact hnone
    · obtain ⟨es, hes, -⟩ := parse?_eq_ok_iff.mp hp'
      rw [decode_append_comma, assignments?_append_comma hes, hnone]
      rfl

end Settings

end TexTree

/-
TexTree/Proofs/Settings/Commas.lean

Settings are read part by part.  When `p` can be read, a comma behind it ends its
last part, whatever comes after:

    assignments? (p ++ ',' :: q)  =  the assignments of p, then those of q

so the settings of `p,q` are those of `p`, overridden by those of `q`
(`parse?_append_comma`), and a quote that is not closed in `q` is the only thing
that can be wrong.

Design.  A comma stops every class of characters that the scanner cuts by, hence
each stage does at a comma what it does at the end of the text: it takes the same
characters and leaves the comma and what follows in the rest.  The one stage that a
comma does not stop is a quoted value, and there it does not have to, since a value
that has been closed is not looked at again (`quotedValue?_append`).
-/
import TexTree.Settings
import TexTree.Proofs.Text.Cut
import TexTree.Proofs.Text.Utf8

namespace TexTree

/-! ### A comma stops -/

theorem stops_isBlank_comma (t : List Char) : Stops isBlank (',' :: t) := stops_cons.mpr rfl

theorem stops_isKeyChar_comma (t : List Char) : Stops isKeyChar (',' :: t) := stops_cons.mpr rfl

theorem stops_isValueChar_comma (t : List Char) : Stops isValueChar (',' :: t) :=
  stops_cons.mpr rfl

/-! ### One part -/

/-- A quoted value that is closed is read the same with any text behind it. -/
theorem quotedValue?_append {q : Char} (hq : q ≠ '\\') {seen cs v rest : List Char}
    (h : quotedValue? q seen cs = some (v, rest)) (t : List Char) :
    quotedValue? q seen (cs ++ t) = some (v, rest ++ t) := by
  fun_induction quotedValue? q seen cs with
  | case1 => cases h
  | case2 seen =>
    -- the closing quote is the last character, so `t` starts right behind it
    obtain ⟨rfl, rfl⟩ : seen.reverse = v ∧ [] = rest := by simpa using h
    cases t with
    | nil => simp [quotedValue?]
    | cons d t =>
      rw [List.singleton_append, quotedValue?, if_neg fun hd => hq hd.1, if_pos rfl]
      rfl
  | case3 seen c hc => cases h
  | case4 seen c d rest' hd ih =>
    rw [List.cons_append, List.cons_append, quotedValue?, if_pos hd]
    exact ih h
  | case5 seen d rest' hd =>
    obtain ⟨rfl, rfl⟩ : seen.reverse = v ∧ d :: rest' = rest := by simpa using h
    rw [List.cons_append, List.cons_append, quotedValue?, if_neg hd, if_pos rfl]
  | case6 seen c d rest' hd hc ih =>
    rw [List.cons_append, List.cons_append, quotedValue?, if_neg hd, if_neg hc]
    exact ih h

/-- A value ends at a comma as it ends with the text. -/
theorem value?_append_comma {cs v rest : List Char} (h : value? cs = some (v, rest))
    (t : List Char) : value? (cs ++ ',' :: t) = some (v, rest ++ ',' :: t) := by
  cases cs with
  | nil =>
    obtain ⟨rfl, rfl⟩ : [] = v ∧ [] = rest := by simpa [value?] using h
    rfl
  | cons c cs =>
    rw [value?] at h
    rw [List.cons_append, value?]
    split at h
    · next hquote =>
      have hc : c ≠ '\\' := by rcases hquote with rfl | rfl <;> decide
      rw [if_pos hquote]
      exact quotedValue?_append hc h _
    · next hquote =>
      obtain ⟨rfl, rfl⟩ : (c :: cs).takeWhile isValueChar = v ∧
          (c :: cs).dropWhile isValueChar = rest := by simpa using h
      rw [if_neg hquote, ← List.cons_append,
        takeWhile_append_of_stops _ (stops_isValueChar_comma t),
        dropWhile_append_of_stops _ (stops_isValueChar_comma t)]

/-- A part ends at a comma as it ends with the text. -/
theorem part?_append_comma {cs rest : List Char} {e : Option (String × String)}
    (h : part? cs = some (e, rest)) (t : List Char) :
    part? (cs ++ ',' :: t) = some (e, rest ++ ',' :: t) := by
  rw [part?] at h ⊢
  simp only [dropWhile_append_of_stops _ (stops_isBlank_comma t),
    takeWhile_append_of_stops _ (stops_isKeyChar_comma t),
    dropWhile_append_of_stops _ (stops_isKeyChar_comma t)]
  generalize (cs.dropWhile isBlank).takeWhile isKeyChar = key at h ⊢
  generalize ((cs.dropWhile isBlank).dropWhile isKeyChar).dropWhile isBlank = after at h ⊢
  split at h
  · next k ks rest' =>
    obtain ⟨⟨v, behind⟩, hv, he⟩ := Option.map_eq_some_iff.mp h
    obtain ⟨rfl, rfl⟩ := Prod.mk.inj he
    rw [List.cons_append]
    simp only [dropWhile_append_of_stops _ (stops_isBlank_comma t), value?_append_comma hv t,
      Option.map_some]
  · next hnot =>
    obtain ⟨rfl, rfl⟩ := Prod.mk.inj (Option.some.inj h)
    -- without a key or an equals sign there is still none when a comma follows
    split
    · next k ks rest' heq =>
      cases after with
      | nil => cases heq
      | cons c after =>
        obtain ⟨rfl, -⟩ := List.cons.inj heq
        exact absurd rfl (hnot k ks after rfl)
    · rfl

/-! ### Part by part -/

/-- Behind the last part of a text there is nothing, and behind a comma that follows it
there is what follows the comma; behind any other part the text goes on. -/
theorem nextPart_append_comma (cs t : List Char) :
    (nextPart cs = [] ∧ nextPart (cs ++ ',' :: t) = t) ∨
      nextPart (cs ++ ',' :: t) = nextPart cs ++ ',' :: t := by
  have hstop : Stops (· != ',') (',' :: t) := stops_cons.mpr rfl
  rw [nextPart, nextPart, dropWhile_append_of_stops cs hstop]
  cases cs.dropWhile (· != ',') with
  | nil => exact .inl ⟨rfl, rfl⟩
  | cons c rest => exact .inr rfl

theorem assignments?_nil : assignments? [] = some [] := by
  rw [assignments?.eq_def]

/-- What one part gives comes in front of what the next ones give. -/
theorem assignments?_of_part? {cs rest : List Char} {e : Option (String × String)}
    (h : part? cs = some (e, rest)) :
    assignments? cs = (assignments? (nextPart rest)).map (e.toList ++ ·) := by
  fun_cases assignments? cs with
  | case1 =>
    obtain ⟨rfl, rfl⟩ : none = e ∧ [] = rest := by simpa [part?] using h
    show some [] = (assignments? []).map ([] ++ ·)
    rw [assignments?_nil]
    rfl
  | case2 c cs hnone => cases hnone.symm.trans h
  | case3 c cs rest' hpart =>
    cases hpart.symm.trans h
    exact (Option.map_id' ..).symm
  | case4 c cs e' rest' hpart =>
    cases hpart.symm.trans h
    rfl

/-- Nothing is assigned in front of a comma that comes first. -/
theorem assignments?_comma (t : List Char) : assignments? (',' :: t) = assignments? t := by
  have hpart : part? (',' :: t) = some (none, ',' :: t) := rfl
  rw [assignments?_of_part? hpart]
  exact Option.map_id' ..

/-- **A comma parts the assignments of a text**, when what stands in front of it can be
read. -/
theorem assignments?_append_comma {p : List Char} {es : List (String × String)}
    (h : assignments? p = some es) (q : List Char) :
    assignments? (p ++ ',' :: q) = (assignments? q).map (es ++ ·) := by
  -- the induction is over the parts of `p`; the last one ends at the comma in front of `q`
  have hstep : ∀ {cs rest : List Char} {e : Option (String × String)} {fs : List (String × String)},
      part? cs = some (e, rest) → assignments? (nextPart rest) = some fs →
      (∀ gs, assignments? (nextPart rest) = some gs →
        assignments? (nextPart rest ++ ',' :: q) = (assignments? q).map (gs ++ ·)) →
      assignments? (cs ++ ',' :: q) = (assignments? q).map ((e.toList ++ fs) ++ ·) := by
    intro cs rest e fs hpart hfs ih
    rw [assignments?_of_part? (part?_append_comma hpart q)]
    rcases nextPart_append_comma rest q with ⟨hlast, hnext⟩ | hnext
    · obtain rfl : fs = [] := by simpa [hlast, assignments?_nil, eq_comm] using hfs
      rw [hnext, List.append_nil]
    · rw [hnext, ih fs hfs, Option.map_map]
      congr 1
      funext gs
      exact (List.append_assoc ..).symm
  fun_induction assignments? p generalizing es with
  | case1 =>
    obtain rfl : [] = es := Option.some.inj h
    rw [List.nil_append, assignments?_comma]
    exact (Option.map_id' ..).symm
  | case2 => cases h
  | case3 c cs rest hpart ih => exact hstep hpart h fun gs hgs => ih hgs
  | case4 c cs e rest hpart ih =>
    obtain ⟨fs, hfs, rfl⟩ := Option.map_eq_some_iff.mp h
    exact hstep hpart hfs fun gs hgs => ih hgs

/-! ### Settings -/

namespace Settings

/-- Keys that are set one after the other override what is there. -/
theorem get?_foldl_insert (es : List (String × String)) (s : Settings) (k : String) :
    (es.foldl (fun s e => s.insert e.1 e.2) s).get? k = ((ofList es).get? k).or (s.get? k) := by
  induction es generalizing s with
  | nil => rfl
  | cons e es ih =>
    rw [ofList, List.foldl_cons, List.foldl_cons, ih (s.insert e.1 e.2), ih (empty.insert e.1 e.2),
      get?_insert, get?_insert, get?_empty, Option.or_assoc]
    split <;> rfl

/-- Later entries of a list override earlier ones. -/
theorem get?_ofList_append (es fs : List (String × String)) (k : String) :
    (ofList (es ++ fs)).get? k = ((ofList fs).get? k).or ((ofList es).get? k) := by
  rw [ofList, List.foldl_append]
  exact get?_foldl_insert fs _ k

theorem parse?_eq_ok_iff {cs : List Char} {s : Settings} :
    parse? cs = .ok s ↔ ∃ es, assignments? cs = some es ∧ ofList es = s := by
  rw [parse?]
  cases assignments? cs with
  | none => simp
  | some es => simp

theorem parse?_eq_error_iff {cs : List Char} {e : SettingsError} :
    parse? cs = .error e ↔ assignments? cs = none := by
  cases e
  rw [parse?]
  cases assignments? cs with
  | none => simp
  | some es => simp

/-- A comma parts bytes as it parts the text. -/
theorem decode_append_comma (p q : List UInt8) :
    Utf8.decode (p ++ Utf8.bytes "," ++ q) = Utf8.decode p ++ ',' :: Utf8.decode q := by
  show Utf8.decode (p ++ [0x2c] ++ q) = _
  rw [List.append_assoc, List.singleton_append]
  exact Utf8.decode_append_ofNat (c := ',') (by decide) p q

/-- **Settings are compositional over commas.**  Behind a text of which settings can be read,
a comma and another text fail exactly when the other text does; otherwise the settings of the
other text override those of the first, which keeps all its other keys, and there are no
further ones.  Texts are bytes, and need not be well-formed. -/
theorem parse?_append_comma (p q : List UInt8) {m : Settings}
    (h : parse? (Utf8.decode p) = .ok m) :
    (∀ e, parse? (Utf8.decode (p ++ Utf8.bytes "," ++ q)) = .error e ↔
      parse? (Utf8.decode q) = .error e) ∧
    ∀ n, parse? (Utf8.decode q) = .ok n →
      ∃ r, parse? (Utf8.decode (p ++ Utf8.bytes "," ++ q)) = .ok r ∧
        ∀ k, r.get? k = (n.get? k).or (m.get? k) := by
  obtain ⟨es, hes, rfl⟩ := parse?_eq_ok_iff.mp h
  have hcomma := assignments?_append_comma hes (Utf8.decode q)
  rw [decode_append_comma]
  constructor
  · intro e
    rw [parse?_eq_error_iff, parse?_eq_error_iff, hcomma, Option.map_eq_none_iff]
  · intro n hn
    obtain ⟨fs, hfs, rfl⟩ := parse?_eq_ok_iff.mp hn
    rw [hfs] at hcomma
    exact ⟨ofList (es ++ fs), parse?_eq_ok_iff.mpr ⟨es ++ fs, hcomma, rfl⟩,
      get?_ofList_append es fs⟩

/-- The comma inside a quoted value parts nothing; the one behind it does, and the key that
is set again has its last value. -/
theorem parse?_quoted_comma :
    parse? (Utf8.decode (Utf8.bytes "caption = \"a, b\", width=3cm")) =
      .ok (ofList [("caption", "a, b"), ("width", "3cm")]) ∧
    ∃ r, parse? (Utf8.decode (Utf8.bytes "caption = \"a, b\", width=3cm" ++ Utf8.bytes "," ++
      Utf8.bytes "Caption='c, d'")) = .ok r ∧
      r.get? "caption" = some "c, d" ∧ r.get? "width" = some "3cm" := by
  have hp : parse? (Utf8.decode (Utf8.bytes "caption = \"a, b\", width=3cm")) =
      .ok (ofList [("caption", "a, b"), ("width", "3cm")]) := by
    decide +kernel
  have hq : parse? (Utf8.decode (Utf8.bytes "Caption='c, d'")) =
      .ok (ofList [("caption", "c, d")]) := by
    decide +kernel
  obtain ⟨r, hr, hget⟩ := (parse?_append_comma _ _ hp).2 _ hq
  refine ⟨hp, r, hr, ?_, ?_⟩ <;> rw [hget] <;> decide +kernel

end Settings

end TexTree

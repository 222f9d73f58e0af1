/-
TexTree/Proofs/Json/Reader.lean

The reader of tokens accepts the tokens of a value and no others:

    ofTokens? limit ts = some v   ↔   ts = v.tokens  and  v.depth ≤ limit

Design.  One direction runs the machine along the tokens of a value
(`run_tokensThen`): from any state that waits for a value, it arrives where the
finished value has been supplied.

The other direction looks back.  A state of the machine determines the tokens
that lead to it (`Reader.consumed`), because it holds all that has been read and
is still open.  `consumed_step` says that a step adds exactly the token it takes,
and that the bound on the nesting is kept (`Reader.Within`); the rest is an
induction along the run.
-/
import TexTree.Json.Printer
import TexTree.Json.Reader
import Mathlib.Data.List.Basic

namespace TexTree

/-! ### The tokens of a value, in parts -/

namespace Json

mutual

theorem tokensThen_append : ∀ (v : Json) (ts us : List Token),
    v.tokensThen (ts ++ us) = v.tokensThen ts ++ us
  | .atom a, ts, us => rfl
  | .array items, ts, us => by
    rw [tokensThen, tokensThen, ← List.cons_append, itemTokensThen_append items]
    rfl
  | .object members, ts, us => by
    rw [tokensThen, tokensThen, ← List.cons_append, memberTokensThen_append members]
    rfl

theorem itemTokensThen_append : ∀ (items : List Json) (ts us : List Token),
    itemTokensThen items (ts ++ us) = itemTokensThen items ts ++ us
  | [], ts, us => by rw [itemTokensThen, itemTokensThen]
  | [v], ts, us => by rw [itemTokensThen, itemTokensThen, tokensThen_append v]
  | v :: w :: items, ts, us => by
    rw [itemTokensThen, itemTokensThen, itemTokensThen_append (w :: items), ← List.cons_append,
      tokensThen_append v]

theorem memberTokensThen_append : ∀ (members : List (String × Json)) (ts us : List Token),
    memberTokensThen members (ts ++ us) = memberTokensThen members ts ++ us
  | [], ts, us => by rw [memberTokensThen, memberTokensThen]
  | [(k, v)], ts, us => by
    rw [memberTokensThen, memberTokensThen, tokensThen_append v]
    rfl
  | (k, v) :: m :: members, ts, us => by
    rw [memberTokensThen, memberTokensThen, memberTokensThen_append (m :: members),
      ← List.cons_append, tokensThen_append v]
    rfl

end

theorem tokensThen_eq (v : Json) (ts : List Token) : v.tokensThen ts = v.tokens ++ ts :=
  tokensThen_append v [] ts

theorem itemTokensThen_eq (items : List Json) (ts : List Token) :
    itemTokensThen items ts = itemTokensThen items [] ++ ts :=
  itemTokensThen_append items [] ts

theorem memberTokensThen_eq (members : List (String × Json)) (ts : List Token) :
    memberTokensThen members ts = memberTokensThen members [] ++ ts :=
  memberTokensThen_append members [] ts

theorem tokens_array (items : List Json) :
    (Json.array items).tokens = .openArray :: (itemTokensThen items [] ++ [.closeArray]) := by
  rw [tokens, tokensThen, itemTokensThen_eq]

theorem tokens_object (members : List (String × Json)) :
    (Json.object members).tokens =
      .openObject :: (memberTokensThen members [] ++ [.closeObject]) := by
  rw [tokens, tokensThen, memberTokensThen_eq]

/-- The tokens of a member. -/
def memberTokens (m : String × Json) : List Token := .atom (.text m.1) :: .colon :: m.2.tokens

/-- The tokens of items with a comma behind each of them. -/
def itemsAndCommas (items : List Json) : List Token := items.flatMap fun v => v.tokens ++ [.comma]

/-- The tokens of members with a comma behind each of them. -/
def membersAndCommas (members : List (String × Json)) : List Token :=
  members.flatMap fun m => memberTokens m ++ [.comma]

/-- One more item stands behind a comma. -/
theorem itemTokensThen_concat (items : List Json) (v : Json) :
    itemTokensThen (items ++ [v]) [] = itemsAndCommas items ++ v.tokens := by
  induction items with
  | nil => rfl
  | cons w items ih =>
    have hcons : itemTokensThen (w :: (items ++ [v])) [] =
        w.tokensThen (.comma :: itemTokensThen (items ++ [v]) []) := by
      cases items <;> rfl
    rw [List.cons_append, hcons, ih, tokensThen_eq]
    simp [itemsAndCommas]

/-- One more member stands behind a comma. -/
theorem memberTokensThen_concat (members : List (String × Json)) (m : String × Json) :
    memberTokensThen (members ++ [m]) [] = membersAndCommas members ++ memberTokens m := by
  induction members with
  | nil => rfl
  | cons n members ih =>
    have hcons : memberTokensThen (n :: (members ++ [m])) [] =
        .atom (.text n.1) :: .colon ::
          n.2.tokensThen (.comma :: memberTokensThen (members ++ [m]) []) := by
      cases members <;> rfl
    rw [List.cons_append, hcons, ih, tokensThen_eq]
    simp [membersAndCommas, memberTokens]

theorem itemsAndCommas_eq {items : List Json} (h : items ≠ []) :
    itemsAndCommas items = itemTokensThen items [] ++ [.comma] := by
  obtain ⟨init, last, rfl⟩ := (List.eq_nil_or_concat' items).resolve_left h
  rw [itemTokensThen_concat]
  simp [itemsAndCommas]

theorem membersAndCommas_eq {members : List (String × Json)} (h : members ≠ []) :
    membersAndCommas members = memberTokensThen members [] ++ [.comma] := by
  obtain ⟨init, last, rfl⟩ := (List.eq_nil_or_concat' members).resolve_left h
  rw [memberTokensThen_concat]
  simp [membersAndCommas]

end Json

/-! ### The machine along the tokens of a value -/

namespace Reader

open Json (itemTokensThen memberTokensThen depthItems depthMembers)

variable {limit : Nat}

theorem run_cons (r : Reader) (t : Token) (ts : List Token) :
    run limit r (t :: ts) = (step limit r t).bind fun r => run limit r ts := by
  rw [run, List.foldlM_cons]
  rfl

/-- The first item of an array is read as any other. -/
theorem run_firstItem (v : Json) (items : List Json) (outer : List Frame) (ts : List Token) :
    run limit (.firstItem outer) (itemTokensThen (v :: items) ts) =
      run limit (.value (.array [] :: outer)) (itemTokensThen (v :: items) ts) := by
  -- what the reader looks at is the first token of the item, and no item starts with an end
  cases v with
  | atom a => cases items <;> rfl
  | array vs => cases items <;> rfl
  | object ms => cases items <;> rfl

/-- The first name of an object is read as any other. -/
theorem run_firstName (m : String × Json) (members : List (String × Json)) (outer : List Frame)
    (ts : List Token) :
    run limit (.firstName outer) (memberTokensThen (m :: members) ts) =
      run limit (.nextName [] outer) (memberTokensThen (m :: members) ts) := by
  cases members <;> rfl

mutual

/-- **The tokens of a value take the reader across it**, as long as it does not nest
too deep. -/
theorem run_tokensThen : ∀ (v : Json) (outer : List Frame) (ts : List Token),
    v.depth + outer.length ≤ limit →
    run limit (.value outer) (v.tokensThen ts) = run limit (supply v outer) ts
  | .atom a, outer, ts, _ => rfl
  | .array items, outer, ts, h => by
    rw [Json.depth] at h
    have hopen : step limit (.value outer) .openArray = some (.firstItem outer) :=
      if_pos (by omega)
    have hitems := run_itemTokensThen items [] outer ts (by omega)
    rw [Json.tokensThen, run_cons, hopen, Option.bind_some]
    cases items with
    | nil => rfl
    | cons v items => rw [run_firstItem, hitems (by simp)]; rfl
  | .object members, outer, ts, h => by
    rw [Json.depth] at h
    have hopen : step limit (.value outer) .openObject = some (.firstName outer) :=
      if_pos (by omega)
    have hmembers := run_memberTokensThen members [] outer ts (by omega)
    rw [Json.tokensThen, run_cons, hopen, Option.bind_some]
    cases members with
    | nil => rfl
    | cons m members => rw [run_firstName, hmembers (by simp)]; rfl

/-- The items of an array that is open are read up to its end. -/
theorem run_itemTokensThen : ∀ (items seen : List Json) (outer : List Frame) (ts : List Token),
    depthItems items + 1 + outer.length ≤ limit → items ≠ [] →
    run limit (.value (.array seen :: outer)) (itemTokensThen items (.closeArray :: ts)) =
      run limit (supply (.array (seen.reverse ++ items)) outer) ts
  | [], _, _, _, _, hne => absurd rfl hne
  | [v], seen, outer, ts, h, _ => by
    rw [depthItems, depthItems] at h
    rw [itemTokensThen, run_tokensThen v _ _ (by simp; omega), supply, run_cons, step,
      Option.bind_some, List.reverse_cons]
  | v :: w :: items, seen, outer, ts, h, _ => by
    rw [depthItems] at h
    rw [itemTokensThen, run_tokensThen v _ _ (by simp; omega), supply, run_cons, step,
      Option.bind_some, run_itemTokensThen (w :: items) (v :: seen) outer ts (by omega) (by simp),
      List.reverse_cons, List.append_assoc, List.singleton_append]

/-- The members of an object that is open are read up to its end. -/
theorem run_memberTokensThen : ∀ (members seen : List (String × Json)) (outer : List Frame)
    (ts : List Token), depthMembers members + 1 + outer.length ≤ limit → members ≠ [] →
    run limit (.nextName seen outer) (memberTokensThen members (.closeObject :: ts)) =
      run limit (supply (.object (seen.reverse ++ members)) outer) ts
  | [], _, _, _, _, hne => absurd rfl hne
  | [(k, v)], seen, outer, ts, h, _ => by
    rw [depthMembers, depthMembers] at h
    rw [memberTokensThen, run_cons, step, Option.bind_some, run_cons, step, Option.bind_some,
      run_tokensThen v _ _ (by simp; omega), supply, run_cons, step, Option.bind_some,
      List.reverse_cons]
  | (k, v) :: m :: members, seen, outer, ts, h, _ => by
    rw [depthMembers] at h
    rw [memberTokensThen, run_cons, step, Option.bind_some, run_cons, step, Option.bind_some,
      run_tokensThen v _ _ (by simp; omega), supply, run_cons, step, Option.bind_some,
      run_memberTokensThen (m :: members) ((k, v) :: seen) outer ts (by omega) (by simp),
      List.reverse_cons, List.append_assoc, List.singleton_append]

end

end Reader

/-! ### What the machine has behind it -/

namespace Json

theorem depthItems_append (vs ws : List Json) :
    depthItems (vs ++ ws) = max (depthItems vs) (depthItems ws) := by
  induction vs with
  | nil => simp [depthItems]
  | cons v vs ih => rw [List.cons_append, depthItems, depthItems, ih, Nat.max_assoc]

theorem depthItems_reverse (vs : List Json) : depthItems vs.reverse = depthItems vs := by
  induction vs with
  | nil => rfl
  | cons v vs ih =>
    rw [List.reverse_cons, depthItems_append, ih, depthItems, depthItems, depthItems, Nat.max_comm]
    simp

theorem depthMembers_append (ms ns : List (String × Json)) :
    depthMembers (ms ++ ns) = max (depthMembers ms) (depthMembers ns) := by
  induction ms with
  | nil => simp [depthMembers]
  | cons m ms ih => rw [List.cons_append, depthMembers, depthMembers, ih, Nat.max_assoc]

theorem depthMembers_reverse (ms : List (String × Json)) :
    depthMembers ms.reverse = depthMembers ms := by
  induction ms with
  | nil => rfl
  | cons m ms ih =>
    rw [List.reverse_cons, depthMembers_append, ih, depthMembers, depthMembers, depthMembers,
      Nat.max_comm]
    simp

end Json

open Json (itemTokensThen memberTokensThen itemsAndCommas membersAndCommas depthItems depthMembers)

/-- The tokens that have been read of a container that waits for a value. -/
def Frame.tokens : Frame → List Token
  | .array items => .openArray :: itemsAndCommas items.reverse
  | .object members name =>
    .openObject :: (membersAndCommas members.reverse ++ [.atom (.text name), .colon])

/-- The depth of the deepest value that a container holds. -/
def Frame.depth : Frame → Nat
  | .array items => depthItems items
  | .object members _ => depthMembers members

/-- The tokens that have been read of containers inside one another. -/
def framesTokens : List Frame → List Token
  | [] => []
  | f :: outer => framesTokens outer ++ f.tokens

/-- None of the open containers holds a value that nests too deep for its place. -/
def FramesWithin (limit : Nat) : List Frame → Prop
  | [] => True
  | f :: outer => f.depth + outer.length < limit ∧ FramesWithin limit outer

namespace Reader

variable {limit : Nat}

/-- The tokens that lead to a state. -/
def consumed : Reader → List Token
  | .value outer => framesTokens outer
  | .firstItem outer => framesTokens outer ++ [.openArray]
  | .firstName outer => framesTokens outer ++ [.openObject]
  | .nextName members outer => framesTokens outer ++ .openObject :: membersAndCommas members.reverse
  | .colon members name outer =>
    framesTokens outer ++ .openObject :: (membersAndCommas members.reverse ++ [.atom (.text name)])
  | .afterItem items outer => framesTokens outer ++ .openArray :: itemTokensThen items.reverse []
  | .afterMember members outer =>
    framesTokens outer ++ .openObject :: memberTokensThen members.reverse []
  | .done v => v.tokens

/-- What is held nests at most `limit` deep, and behind an item or a member there is
one. -/
def Within (limit : Nat) : Reader → Prop
  | .value outer => FramesWithin limit outer
  | .firstItem outer | .firstName outer => outer.length < limit ∧ FramesWithin limit outer
  | .nextName members outer =>
    members ≠ [] ∧ depthMembers members + outer.length < limit ∧ FramesWithin limit outer
  | .colon members _ outer =>
    depthMembers members + outer.length < limit ∧ FramesWithin limit outer
  | .afterItem items outer =>
    items ≠ [] ∧ depthItems items + outer.length < limit ∧ FramesWithin limit outer
  | .afterMember members outer =>
    members ≠ [] ∧ depthMembers members + outer.length < limit ∧ FramesWithin limit outer
  | .done v => v.depth ≤ limit

theorem consumed_supply (v : Json) (outer : List Frame) :
    (supply v outer).consumed = framesTokens outer ++ v.tokens := by
  cases outer with
  | nil => rfl
  | cons f outer =>
    cases f with
    | array items =>
      rw [supply, consumed, List.reverse_cons, Json.itemTokensThen_concat, framesTokens,
        Frame.tokens]
      simp
    | object members name =>
      rw [supply, consumed, List.reverse_cons, Json.memberTokensThen_concat, framesTokens,
        Frame.tokens, Json.memberTokens]
      simp

theorem within_supply {v : Json} {outer : List Frame} (hv : v.depth + outer.length ≤ limit)
    (ho : FramesWithin limit outer) : (supply v outer).Within limit := by
  cases outer with
  | nil => exact hv
  | cons f outer =>
    obtain ⟨hf, ho⟩ := ho
    rw [List.length_cons] at hv
    cases f with
    | array items =>
      refine ⟨by simp, ?_, ho⟩
      rw [Frame.depth] at hf
      rw [depthItems]
      omega
    | object members name =>
      refine ⟨by simp, ?_, ho⟩
      rw [Frame.depth] at hf
      rw [depthMembers]
      omega

/-- The first token of a value is added to what lies behind. -/
theorem consumed_start {outer : List Frame} {t : Token} {r : Reader}
    (ho : FramesWithin limit outer) (h : start limit outer t = some r) :
    r.consumed = framesTokens outer ++ [t] ∧ r.Within limit := by
  unfold start at h
  split at h
  · next a =>
    cases h
    have hlen : outer.length ≤ limit := by
      cases outer with
      | nil => exact Nat.zero_le _
      | cons f outer => have := ho.1; rw [List.length_cons]; omega
    exact ⟨consumed_supply _ outer, within_supply (by rw [Json.depth]; omega) ho⟩
  · split at h
    · next hlen => cases h; exact ⟨rfl, hlen, ho⟩
    · cases h
  · split at h
    · next hlen => cases h; exact ⟨rfl, hlen, ho⟩
    · cases h
  · cases h

/-- **A step adds the token it takes** to what lies behind, and keeps the bound on
the nesting. -/
theorem consumed_step {r r' : Reader} {t : Token} (hr : r.Within limit)
    (h : step limit r t = some r') :
    r'.consumed = r.consumed ++ [t] ∧ r'.Within limit := by
  unfold step at h
  split at h
  · exact consumed_start hr h
  · -- an empty array
    next outer =>
    cases h
    refine ⟨?_, within_supply (by have := hr.1; simp [Json.depth, depthItems]; omega) hr.2⟩
    rw [consumed_supply, consumed, List.append_assoc]
    rfl
  · next outer _ =>
    have ho : FramesWithin limit (.array [] :: outer) := by
      refine ⟨?_, hr.2⟩
      simpa [Frame.depth, depthItems] using hr.1
    exact consumed_start ho h
  · -- an empty object
    next outer =>
    cases h
    refine ⟨?_, within_supply (by have := hr.1; simp [Json.depth, depthMembers]; omega) hr.2⟩
    rw [consumed_supply, consumed, List.append_assoc]
    rfl
  · cases h
    refine ⟨?_, by simpa [Within, depthMembers] using hr⟩
    simp [consumed, membersAndCommas]
  · next members outer name =>
    cases h
    exact ⟨by simp [consumed], hr.2⟩
  · cases h
    exact ⟨by simp [consumed, framesTokens, Frame.tokens], hr⟩
  · next items outer =>
    cases h
    refine ⟨?_, hr.2⟩
    rw [consumed, consumed, framesTokens, Frame.tokens,
      Json.itemsAndCommas_eq (by simpa using hr.1)]
    simp
  · next items outer =>
    cases h
    obtain ⟨-, hd, ho⟩ := hr
    refine ⟨?_, within_supply (by rw [Json.depth, Json.depthItems_reverse]; omega) ho⟩
    rw [consumed_supply, consumed, Json.tokens_array]
    simp
  · next members outer =>
    cases h
    refine ⟨?_, hr⟩
    rw [consumed, consumed, Json.membersAndCommas_eq (by simpa using hr.1)]
    simp
  · next members outer =>
    cases h
    obtain ⟨-, hd, ho⟩ := hr
    refine ⟨?_, within_supply (by rw [Json.depth, Json.depthMembers_reverse]; omega) ho⟩
    rw [consumed_supply, consumed, Json.tokens_object]
    simp
  · cases h

/-- A run adds the tokens it takes to what lies behind. -/
theorem consumed_run {r r' : Reader} {ts : List Token} (hr : r.Within limit)
    (h : run limit r ts = some r') :
    r'.consumed = r.consumed ++ ts ∧ r'.Within limit := by
  induction ts generalizing r with
  | nil =>
    obtain rfl : r = r' := Option.some.inj h
    exact ⟨by rw [List.append_nil], hr⟩
  | cons t ts ih =>
    rw [run_cons] at h
    obtain ⟨r₁, hstep, hrun⟩ := Option.bind_eq_some_iff.mp h
    obtain ⟨hc, hw⟩ := consumed_step hr hstep
    obtain ⟨hc', hw'⟩ := ih hw hrun
    exact ⟨by rw [hc', hc, List.append_assoc, List.singleton_append], hw'⟩

end Reader

/-! ### Tokens and values -/

/-- **Reading tokens is the inverse of writing them**, up to the bound on the
nesting. -/
theorem Json.ofTokens?_eq_some_iff {limit : Nat} {ts : List Token} {v : Json} :
    Json.ofTokens? limit ts = some v ↔ ts = v.tokens ∧ v.depth ≤ limit := by
  rw [Json.ofTokens?, Option.bind_eq_some_iff]
  constructor
  · rintro ⟨r, hrun, hres⟩
    obtain ⟨hc, hw⟩ := Reader.consumed_run (r := .value []) trivial hrun
    cases r with
    | done w =>
      obtain rfl : w = v := Option.some.inj hres
      exact ⟨hc.symm, hw⟩
    | _ => cases hres
  · rintro ⟨rfl, hd⟩
    exact ⟨.done v, Reader.run_tokensThen v [] [] (by simpa using hd), rfl⟩

end TexTree

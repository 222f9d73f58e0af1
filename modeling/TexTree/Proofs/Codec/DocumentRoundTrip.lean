/-
TexTree/Proofs/Codec/DocumentRoundTrip.lean

Documents are read back as nodes are, and with both every text that is written:

    decode? (encode n) = ok n         a node
    decodeList? (encodeList ns) = ok ns
    decode? (encode d) = ok d         a document

Here the texts are bytes.  They are decoded, parsed and read, and the only thing that
can go wrong on the way is that the value nests deeper than the parser allows.
-/
import TexTree.Codec.Text
import TexTree.Proofs.Codec.RoundTrip
import TexTree.Proofs.Text.Utf8
import Mathlib.Tactic.SplitIfs

namespace TexTree

open Json (sameName)

/-! ### Comments -/

namespace Comment

theorem merge_toJson (c : Comment) : Comment.merge {} c.toJson = c := by
  obtain ⟨content, - | l⟩ := c
  · simp [merge, toJson, tagged, put, textOr, locationMembers]
  · simp [merge, toJson, tagged, put, textOr, locationMembers, Location.merge_toJson]

theorem fits_toJson (c : Comment) : fits c.toJson := by
  obtain ⟨content, - | l⟩ := c
  · simp [fits, toJson, tagged, allNamed, isText, locationMembers]
  · simp [fits, toJson, tagged, allNamed, isText, locationMembers,
      Location.fits_toJson]

end Comment

/-- Comments that are read where there were none are the ones that were written. -/
theorem CommentDraft.comments_merge_toJson (cs : List Comment) :
    (CommentDraft.merge {} (.array (cs.map Comment.toJson))).comments = cs := by
  cases cs with
  | nil => rfl
  | cons c cs =>
    rw [List.map_cons, merge]
    · rw [comments, overlay_nil, ← List.map_cons, List.map_map]
      have hid : (fun v => Comment.merge {} v) ∘ Comment.toJson = id := by
        funext c
        exact Comment.merge_toJson c
      rw [hid, List.map_id, List.take_of_length_le (by simp)]
    · simp

/-! ### Documents -/

namespace Document

theorem field?_kind (k : DocumentKind) : k.field? "kind" = none := by
  cases k <;> rfl

theorem field?_content (k : DocumentKind) : k.field? "content" = some .content := by
  cases k <;> rfl

theorem field?_rest : DocumentKind.preamble.field? "rest" = some .rest := rfl

theorem field?_comment (k : DocumentKind) : k.field? "comment" = some .comments := by
  cases k <;> rfl

/-- The nodes and the comments of a document are read back, and the members behind
them are read over the rest. -/
theorem readMembers_content_comments (k : DocumentKind) (content : Option (List Node))
    (comments : List Comment) (members : List (String × Json)) :
    ∃ draft : CommentDraft, draft.comments = comments ∧
      readMembers k {} (("kind", .text k.name) :: ("content", Node.listToJson content) ::
        (commentMembers comments ++ members)) = readMembers k ⟨content, draft, ""⟩ members := by
  have hcontent : readMembers k {} (("kind", .text k.name) ::
      ("content", Node.listToJson content) :: (commentMembers comments ++ members)) =
        readMembers k ⟨content, {}, ""⟩ (commentMembers comments ++ members) := by
    simp only [readMembers, field?_kind, field?_content, Node.listOfJson?_listToJson_self,
      Option.or_none]
  rw [hcontent]
  cases comments with
  | nil => exact ⟨{}, rfl, rfl⟩
  | cons c cs =>
    refine ⟨_, CommentDraft.comments_merge_toJson (c :: cs), ?_⟩
    rw [commentMembers, List.singleton_append, readMembers, field?_comment]
    · simp

theorem fits_content (k : DocumentKind) (v : Json) : k.fits ("content", v) := by
  rw [DocumentKind.fits, field?_content]
  rfl

theorem all_fits_commentMembers (k : DocumentKind) (cs : List Comment) :
    (commentMembers cs).all k.fits := by
  cases cs with
  | nil => rfl
  | cons c cs =>
    have hall : ((c :: cs).map Comment.toJson).all Comment.fits := by
      simp [Comment.fits_toJson]
    simpa [commentMembers, DocumentKind.fits, field?_comment, DocumentField.fits, CommentDraft.fits]
      using hall

/-- A document is read when its kind is known, its members are read and the type of
each is right. -/
theorem ofJson?_of_readMembers {members : List (String × Json)} {k : DocumentKind}
    {d : DocumentDraft} (hk : kindName? members = some k.name)
    (hd : readMembers k {} members = .ok d) (hfits : members.all k.fits) :
    ofJson? (.object members) = .ok (d.toDocument k) := by
  simp only [ofJson?, hk, DocumentKind.ofName?_name, hd, hfits]
  rfl

/-- The member that gives the rest of the source, if a part of it has not been read. -/
def restMembers : Option String → List (String × Json)
  | some rest => [("rest", .text rest)]
  | none => []

theorem toJson_eq_members (d : Document) :
    d.toJson = .object (("kind", .text d.kind.name) :: ("content", Node.listToJson d.content) ::
      (commentMembers d.comments ++ restMembers d.rest?)) := by
  cases d with
  | root content comments => rfl
  | preamble content comments rest =>
    rw [toJson, tagged, locationMembers, List.append_nil]
    rfl

/-- The rest is read behind everything else. -/
theorem readMembers_restMembers (d : Document) (draft : CommentDraft) :
    readMembers d.kind ⟨d.content, draft, ""⟩ (restMembers d.rest?) =
      .ok ⟨d.content, draft, d.rest?.getD ""⟩ := by
  cases d with
  | root content comments => rfl
  | preamble content comments rest =>
    show readMembers .preamble _ [("rest", .text rest)] = _
    rw [readMembers, field?_rest]
    rfl

theorem all_fits_restMembers (d : Document) : (restMembers d.rest?).all d.kind.fits := by
  cases d with
  | root content comments => rfl
  | preamble content comments rest =>
    show ([("rest", .text rest)] : List (String × Json)).all DocumentKind.preamble.fits = true
    rw [List.all_cons, DocumentKind.fits, field?_rest]
    rfl

theorem mem_commentMembers {cs : List Comment} {m : String × Json} (h : m ∈ commentMembers cs) :
    m = ("comment", .array (cs.map Comment.toJson)) := by
  cases cs with
  | nil => cases h
  | cons c cs =>
    rw [commentMembers, List.mem_singleton] at h
    · exact h
    · simp

theorem mem_restMembers {rest? : Option String} {m : String × Json} (h : m ∈ restMembers rest?) :
    ∃ rest, m = ("rest", .text rest) := by
  cases rest? with
  | none => cases h
  | some rest => exact ⟨rest, List.mem_singleton.mp h⟩

/-- Besides the kind, no member of a document bears its name. -/
theorem sameName_kind_of_mem (d : Document) :
    ∀ m ∈ ("content", Node.listToJson d.content) ::
      (commentMembers d.comments ++ restMembers d.rest?), sameName "kind" m.1 = false := by
  have hcontent : sameName "kind" "content" = false := rfl
  have hcomment : sameName "kind" "comment" = false := rfl
  have hrest : sameName "kind" "rest" = false := rfl
  intro m hm
  rw [List.mem_cons, List.mem_append] at hm
  rcases hm with rfl | hm | hm
  · exact hcontent
  · rw [mem_commentMembers hm]
    exact hcomment
  · obtain ⟨rest, rfl⟩ := mem_restMembers hm
    exact hrest

/-- **Every document is read back from its value.** -/
theorem ofJson?_toJson (d : Document) : ofJson? d.toJson = .ok d := by
  obtain ⟨draft, hdraft, hread⟩ :=
    readMembers_content_comments d.kind d.content d.comments (restMembers d.rest?)
  have hfits : (("kind", .text d.kind.name) :: ("content", Node.listToJson d.content) ::
      (commentMembers d.comments ++ restMembers d.rest?)).all d.kind.fits := by
    rw [List.all_cons, List.all_cons, List.all_append, fits_content, all_fits_commentMembers,
      all_fits_restMembers, DocumentKind.fits, field?_kind]
    rfl
  have hdocument : (DocumentDraft.mk d.content draft (d.rest?.getD "")).toDocument d.kind = d := by
    cases d <;> rw [kind, DocumentDraft.toDocument, hdraft] <;> rfl
  rw [readMembers_restMembers] at hread
  rw [toJson_eq_members, ofJson?_of_readMembers (kindName?_cons (sameName_kind_of_mem d)) hread hfits,
    hdocument]

/-- A document is written with integers for its only numbers. -/
theorem integral_toJson (d : Document) : d.toJson.Integral := by
  have hcomment : ∀ c : Comment, c.toJson.Integral := by
    intro c
    refine integral_tagged fun m hm => ?_
    rw [List.mem_singleton.mp hm]
    exact Json.integral_text _
  have hcontent := Node.integral_listToJson_self d.content
  rw [toJson_eq_members]
  refine Json.integral_object fun m hm => ?_
  rw [List.mem_cons, List.mem_cons, List.mem_append] at hm
  rcases hm with rfl | rfl | hm | hm
  · exact Json.integral_text _
  · exact hcontent
  · rw [mem_commentMembers hm]
    refine Json.integral_array fun v hv => ?_
    obtain ⟨c, -, rfl⟩ := List.mem_map.mp hv
    exact hcomment c
  · obtain ⟨rest, rfl⟩ := mem_restMembers hm
    exact Json.integral_text _

end Document

/-! ### Texts -/

namespace Node

/-- The text of a node is read as the node, unless it nests too deep. -/
theorem decode?_bytes_encode (n : Node) :
    decode? (Utf8.decode (Utf8.bytes n.encode)) =
      if n.toJson.depth ≤ Json.nestingLimit then .ok n else .error ⟨[.nodeKind], .malformed⟩ := by
  rw [Utf8.decode_bytes, encode, decode?, Json.parse?_chars n.integral_toJson]
  split_ifs
  · exact ofJson?_toJson n
  · rfl

/-- The text of a list of nodes is read as the list, unless it nests too deep. -/
theorem decodeList?_bytes_encodeList (ns : Option (List Node)) :
    decodeList? (Utf8.decode (Utf8.bytes (encodeList ns))) =
      if (listToJson ns).depth ≤ Json.nestingLimit then .ok ns else .error ⟨[], .malformed⟩ := by
  rw [Utf8.decode_bytes, encodeList, decodeList?, Json.parse?_chars (integral_listToJson_self ns)]
  split_ifs
  · exact listOfJson?_listToJson_self ns
  · rfl

end Node

/-- The text of a document is read as the document, unless it nests too deep. -/
theorem Document.decode?_bytes_encode (d : Document) :
    decode? (Utf8.decode (Utf8.bytes d.encode)) =
      if d.toJson.depth ≤ Json.nestingLimit then .ok d
      else .error ⟨[.documentKind], .malformed⟩ := by
  rw [Utf8.decode_bytes, encode, decode?, Json.parse?_chars d.integral_toJson]
  split_ifs
  · exact ofJson?_toJson d
  · rfl

/-- **Whatever is written is read back**: every node, every list of nodes, missing or not,
and every document, as long as what is written nests no deeper than the parser allows. -/
theorem read_back_iff_depth_le :
    (∀ n : Node, Node.decode? (Utf8.decode (Utf8.bytes n.encode)) = .ok n ↔
      n.toJson.depth ≤ Json.nestingLimit) ∧
    (∀ ns : Option (List Node),
      Node.decodeList? (Utf8.decode (Utf8.bytes (Node.encodeList ns))) = .ok ns ↔
        (Node.listToJson ns).depth ≤ Json.nestingLimit) ∧
    (∀ d : Document, Document.decode? (Utf8.decode (Utf8.bytes d.encode)) = .ok d ↔
      d.toJson.depth ≤ Json.nestingLimit) := by
  refine ⟨fun n => ?_, fun ns => ?_, fun d => ?_⟩
  · rw [n.decode?_bytes_encode]
    split_ifs with h <;> simp [h]
  · rw [Node.decodeList?_bytes_encodeList]
    split_ifs with h <;> simp [h]
  · rw [d.decode?_bytes_encode]
    split_ifs with h <;> simp [h]

end TexTree

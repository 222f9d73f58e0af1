/-
TexTree/Codec/Comments.lean

Reading the comments of a document.  A list of comments that comes after another
is read over it, comment by comment: the i-th value changes the i-th comment.
What counts is the length of the last list, but comments that a shorter list
leaves out are remembered and read over by a longer one after it; an empty list
and null forget them.
-/
import TexTree.Document
import TexTree.Codec.Member

namespace TexTree

open Json (sameName)

namespace Comment

/-- One member, read over a comment. -/
def put (c : Comment) (m : String × Json) : Comment :=
  if sameName "content" m.1 then { c with content := textOr c.content m.2 }
  else if sameName "location" m.1 then { c with loc := Location.merge c.loc m.2 }
  else c

/-- A value, read over a comment. -/
def merge (c : Comment) : Json → Comment
  | .object members => members.foldl put c
  | _ => c

/-- A value for a comment. -/
def fits : Json → Bool
  | .object members =>
    allNamed "content" isText members && allNamed "location" Location.fits members
  | .null => true
  | _ => false

end Comment

/-- The comments that have been read: the ones remembered, and how many of them
count. -/
structure CommentDraft where
  remembered : List Comment := []
  count : Nat := 0

namespace CommentDraft

/-- The comments that count. -/
def comments (d : CommentDraft) : List Comment := d.remembered.take d.count

/-- Values, read over the comments in the same places. -/
def overlay : List Comment → List Json → List Comment
  | cs, [] => cs
  | [], v :: items => Comment.merge {} v :: overlay [] items
  | c :: cs, v :: items => c.merge v :: overlay cs items

/-- A value, read over the comments. -/
def merge (d : CommentDraft) : Json → CommentDraft
  | .array [] => {}
  | .array items => ⟨overlay d.remembered items, items.length⟩
  | .null => {}
  | _ => d

/-- A value for a list of comments. -/
def fits : Json → Bool
  | .array items => items.all Comment.fits
  | .null => true
  | _ => false

/-- With nothing remembered, every value makes a comment of its own. -/
theorem overlay_nil (items : List Json) :
    overlay [] items = items.map fun v => Comment.merge {} v := by
  induction items with
  | nil => rfl
  | cons v items ih => simp [overlay, ih]

end CommentDraft

end TexTree

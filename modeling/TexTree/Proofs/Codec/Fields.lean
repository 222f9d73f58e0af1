/-
TexTree/Proofs/Codec/Fields.lean

A node is its kind and its fields.  The reader fills a `Draft` and makes a node
of it; here is the way back, and with it everything that is written of a node is
said field by field instead of kind by kind:

    n.draft              what a node holds, as a draft
    d.members k          the members of a draft in the order of the schema

`toNode_draft` says that nothing is lost between the two, and `toJson_eq_members`
that a node is written as the name of its kind and the members of its draft.

`inductionOnLists` is the induction that goes with this view: from all nodes in
the lists of a draft, the list inside a single argument among them, to the node.
-/
import TexTree.Codec.Decode
import TexTree.Codec.Encode

namespace TexTree

/-! ### Nodes as drafts -/

namespace Node

/-- What a node holds. -/
def draft : Node → Draft
  | .text content loc => { text := content, loc }
  | .mathChar content loc => { text := content, loc }
  | .command name args loc => { name, args, loc }
  | .textCommand arg loc => { argument := arg, loc }
  | .letCommand name token target loc => { name, token, target, loc }
  | .defCommand name token args loc => { name, token, args, loc }
  | .environment _ name args content loc => { name, args, content, loc }
  | .enclosed _ content loc => { content, loc }
  | .delimited left right content loc => { left, right, content, loc }
  | .mark _ loc => { loc }
  | .parameter number loc => { number, loc }
  | .verb name escape content loc => { name, escape, text := content, loc }
  | .verbatim name content loc => { name, text := content, loc }
  | .minted name args content loc => { name, args, text := content, loc }
  | .listing name arg content loc => { name, argument := arg, text := content, loc }

/-- A node is its kind and what it holds. -/
@[simp] theorem toNode_draft (n : Node) : n.draft.toNode n.kind = n := by
  cases n with
  | environment flavour => cases flavour <;> rfl
  | enclosed enclosure => cases enclosure <;> rfl
  | mark m => cases m <;> rfl
  | _ => rfl

end Node

/-! ### Drafts field by field -/

namespace Draft

/-- The draft `e` with the field taken from `d`. -/
def copy (e d : Draft) : Field → Draft
  | .name => { e with name := d.name }
  | .token => { e with token := d.token }
  | .target => { e with target := d.target }
  | .left => { e with left := d.left }
  | .right => { e with right := d.right }
  | .number => { e with number := d.number }
  | .escape => { e with escape := d.escape }
  | .text => { e with text := d.text }
  | .args => { e with args := d.args }
  | .content => { e with content := d.content }
  | .argument => { e with argument := d.argument }
  | .location => { e with loc := d.loc }

/-- Different fields are taken independently. -/
theorem copy_comm (e d d' : Draft) {f g : Field} (h : f ≠ g) :
    (e.copy d f).copy d' g = (e.copy d' g).copy d f := by
  cases f <;> cases g <;> simp_all [copy]

/-- A node depends on the fields of its kind only. -/
theorem toNode_foldl_copy (d : Draft) (k : Kind) :
    (k.fields.foldl (fun (e : Draft) f => e.copy d f) {}).toNode k = d.toNode k := by
  cases k <;> rfl

/-- What is written for a field, if anything is.  A single argument that is missing
is null in one kind and left out in the other. -/
def value? (d : Draft) (k : Kind) : Field → Option Json
  | .name => some (.text d.name)
  | .token => some (.text d.token)
  | .target => some (.text d.target)
  | .left => some (.text d.left)
  | .right => some (.text d.right)
  | .number => some (.text d.number)
  | .escape => some (.text d.escape)
  | .text => some (.text d.text)
  | .args => some (Node.listToJson d.args)
  | .content => some (Node.listToJson d.content)
  | .argument =>
    if k = .listing then
      d.argument.map fun a => Node.argumentToJson Kind.optional.name (some a)
    else some (Node.argumentToJson Kind.group.name d.argument)
  | .location => d.loc.map Location.toJson

/-- What is written for a field, under its name. -/
def fieldMembers (d : Draft) (k : Kind) (f : Field) : List (String × Json) :=
  ((d.value? k f).map fun v => (f.key, v)).toList

/-- What is written for all fields, in the order of the schema. -/
def members (d : Draft) (k : Kind) : List (String × Json) := k.fields.flatMap (d.fieldMembers k)

/-- The lists of nodes that a draft holds. -/
def lists (d : Draft) : List (Option (List Node)) :=
  [d.args, d.content, d.argument.bind Argument.content]

end Draft

theorem Kind.nodup_fields (k : Kind) : k.fields.Nodup := by
  cases k <;> decide

/-! ### What is written of a node -/

namespace Node

theorem fieldMembers_location (d : Draft) (k : Kind) :
    d.fieldMembers k .location = locationMembers d.loc := by
  cases h : d.loc <;> simp [Draft.fieldMembers, Draft.value?, h, locationMembers, Field.key]

/-- **A node is written by the schema**: the name of its kind, then its fields in
order. -/
theorem toJson_eq_members (n : Node) :
    n.toJson = .object (("kind", .text n.kind.name) :: n.draft.members n.kind) := by
  cases n with
  | environment flavour =>
    cases flavour <;>
      simp [toJson, tagged, Draft.members, Kind.fields, fieldMembers_location, draft, kind,
        Flavour.kind] <;> rfl
  | enclosed enclosure =>
    cases enclosure <;>
      simp [toJson, tagged, Draft.members, Kind.fields, fieldMembers_location, draft, kind,
        Enclosure.kind] <;> rfl
  | mark m =>
    cases m <;>
      simp [toJson, tagged, Draft.members, Kind.fields, fieldMembers_location, draft, kind,
        Mark.kind]
  | listing name arg =>
    cases arg <;>
      simp [toJson, tagged, Draft.members, Kind.fields, fieldMembers_location, draft, kind] <;> rfl
  | _ =>
    simp [toJson, tagged, Draft.members, Kind.fields, fieldMembers_location, draft, kind]
    rfl

/-! ### Induction over the lists of a node -/

/-- A list that a node holds is smaller than the node. -/
theorem sizeList_lt_of_mem_lists {n : Node} {ns : List Node} (h : some ns ∈ n.draft.lists) :
    sizeList ns < n.size := by
  simp only [Draft.lists, List.mem_cons, List.not_mem_nil, or_false] at h
  cases n with
  | textCommand arg loc | listing name arg content loc =>
    -- the list stands inside the argument, which counts as a node of its own
    rcases arg with - | ⟨inside, argLoc⟩
    · simp [draft] at h
    · obtain rfl : some ns = inside := by simpa [draft] using h
      simp only [size, sizeArgument, sizeOption]
      omega
  | environment flavour name args content loc =>
    have h : some ns = args ∨ some ns = content := by simpa [draft] using h
    rcases h with rfl | rfl <;> simp only [size, sizeOption] <;> omega
  | command name list loc | defCommand name token list loc | minted name list content loc
  | enclosed enclosure list loc | delimited left right list loc =>
    obtain rfl : some ns = list := by simpa [draft] using h
    simp only [size, sizeOption]
    omega
  | _ => simp [draft] at h

/-- **Induction over the lists of a node**: what passes from all nodes in the lists
of a node to the node holds of every node. -/
theorem inductionOnLists {motive : Node → Prop}
    (step : ∀ n : Node, (∀ ns, some ns ∈ n.draft.lists → ∀ m ∈ ns, motive m) → motive n)
    (n : Node) : motive n :=
  step n fun _ns _hns m _hm => inductionOnLists step m
termination_by n.size
decreasing_by exact Nat.lt_of_le_of_lt (size_le_of_mem _hm) (sizeList_lt_of_mem_lists _hns)

end Node

end TexTree

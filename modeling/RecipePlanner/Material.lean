import RecipePlanner.Naming

/-!
# Items, tags and materials

A recipe asks for materials. A material is a concrete item or a tag that stands for a set of
items; the members of a tag are filled in from a catalogue. Materials are the same when their
identifiers are the same text, whatever their names and members.
-/

namespace RecipePlanner

/-- A concrete item with the name shown for it. -/
structure Item where
  id : String
  name : String
  deriving DecidableEq, Repr, Inhabited

/-- A named set of items. The members are empty until a catalogue supplies them. -/
structure Tag where
  id : String
  name : String
  members : List Item
  deriving DecidableEq, Repr, Inhabited

/-- An item whose name is derived from its identifier. -/
def Item.ofId (id : String) : Item := ⟨id, Naming.display id⟩

/-- A tag without members whose name is derived from its identifier. -/
def Tag.ofId (id : String) : Tag := ⟨id, Naming.display id, []⟩

/-- What a recipe asks for or yields. -/
inductive Material where
  | item (item : Item)
  | tag (tag : Tag)
  deriving DecidableEq, Repr, Inhabited

namespace Material

/-- Reads an identifier without the blanks at its ends; a leading `#` makes it a tag. -/
def parse (raw : String) : Material :=
  let id := Text.trim raw
  if Naming.isTagName id then .tag (Tag.ofId id) else .item (Item.ofId id)

/-- The item with exactly this identifier. -/
def ofItemId (id : String) : Material := .item (Item.ofId id)

/-- The tag with the canonical form of this name. -/
def ofTagName (raw : String) : Material := .tag (Tag.ofId (Naming.tagName raw))

/-- The identifier, which alone decides whether two materials are the same. -/
def id : Material → String
  | .item i => i.id
  | .tag t => t.id

/-- The name shown to a reader. -/
def name : Material → String
  | .item i => i.name
  | .tag t => t.name

/-- Whether the material is a tag. -/
def isTag : Material → Bool
  | .item _ => false
  | .tag _ => true

/-- The identifiers of the items a material stands for. -/
def itemIds : Material → List String
  | .item i => [i.id]
  | .tag t => t.members.map (·.id)

theorem id_parse (raw : String) : (parse raw).id = Text.trim raw := by
  rw [parse]
  split <;> rfl

/-- What is read from a text is a tag exactly if its identifier is marked as one. -/
theorem isTag_parse (raw : String) : (parse raw).isTag = Naming.isTagName (parse raw).id := by
  rw [id_parse, parse]
  split
  · next h => exact h.symm
  · next h => exact (Bool.eq_false_iff.2 h).symm

end Material

end RecipePlanner

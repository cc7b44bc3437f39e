import RecipePlanner.Indexed
import RecipePlanner.Material
import RecipePlanner.ReleaseTable

/-!
# Catalogues

A catalogue lists the items of one release with their names and, for each tag, the items it stands
for. It is drafted entry by entry: a tag may be entered several times, each time adding values, and
a value may name another tag. Finishing a draft checks the identifiers and flattens every tag to
its items. A nested tag that was never entered, or that is being flattened already, adds nothing.

Tags and items are found through an index of their names. That is how they are found without one,
too: tags are entered into a table (`tags_addTag`) in which they are looked up (`values?_eq_lookup`),
and an item is the first with its identifier (`item?_eq_find?`).
-/

namespace RecipePlanner

/-- A list of names with what stands behind them. -/
abbrev TagList := List (String × List String)

namespace Catalogue

/-- Entries gathered for a catalogue: items in order, tags by canonical name in order of their
first entry, with the values of all entries of a tag one after the other. -/
structure Draft where
  items : List Item
  table : IndexedTable String (List String)

/-- What can be wrong with a draft. -/
inductive Fault where
  | duplicateItem (id : String)
  | invalidItem (id : String)
  | invalidTag (id : String)
  deriving DecidableEq, Repr

/-- The wording of a fault. -/
def Fault.message : Fault → String
  | duplicateItem id => "duplicate item: " ++ id
  | invalidItem id => "invalid item id: '" ++ id ++ "'"
  | invalidTag id => "invalid tag id: '" ++ id ++ "'"

namespace Draft

/-- The draft without entries. -/
def empty : Draft := ⟨[], .empty⟩

/-- The tags entered so far with their values. -/
def tags (d : Draft) : TagList := d.table.entries

/-- The values entered for a tag. -/
def values? (d : Draft) (tag : String) : Option (List String) := d.table.value? tag

/-- Enters an item. Without a name one is derived from the identifier. -/
def addItem (d : Draft) (id : String) (name : Option String) : Draft :=
  let id := Text.trim id
  { d with items := d.items ++ [⟨id, name.getD (Naming.display id)⟩] }

/-- Enters values of a tag, after those it has already. -/
def addTag (d : Draft) (tag : String) (values : List String) : Draft :=
  let more := fun earlier : Option (List String) => earlier.getD [] ++ values.map Text.trim
  { d with table := d.table.alter (Naming.tagName tag) more }

/-- Whether an item with this identifier has been entered. -/
def hasItem (d : Draft) (id : String) : Bool := d.items.any (·.id = Text.trim id)

/-- Lists one more item. Its identifier must be that of an item, and a new one. -/
def listItem (listed : Indexed Item.id) (i : Item) : Except Fault (Indexed Item.id) :=
  if i.id = "" ∨ Naming.isTagName i.id then .error (.invalidItem i.id)
  else
    match listed.insertNew? i with
    | some listed => .ok listed
    | none => .error (.duplicateItem i.id)

/-- The first tag without a path. -/
def tagFault? (tags : TagList) : Option Fault :=
  (tags.find? fun (t, _) => Text.afterLast ':' t.toList = []).map fun (t, _) => .invalidTag t

/-- Adds the items of a tag to those found so far, given how values of tags are looked up. `lineage`
holds the tags being flattened and `levels` how many more may be entered; as each is a different
tag, as many levels as there are tags suffice. -/
def gather (values? : String → Option (List String)) :
    (levels : Nat) → (lineage : List String) → (tag : String) → (found : List String) → List String
  | 0, _, _, found => found
  | levels + 1, lineage, tag, found =>
    match values? tag with
    | none => found
    | some values =>
      if tag ∈ lineage then found
      else values.foldl (fun found value =>
        if Naming.isTagName value then
          gather values? levels (tag :: lineage) (Naming.tagName value) found
        else if value ∈ found then found
        else found ++ [value]) found

/-- The items of a tag, each once, in the order in which they are met. -/
def flattened (d : Draft) (tag : String) : List String :=
  gather d.values? d.tags.length [] tag []

theorem tags_addItem (d : Draft) (id : String) (name : Option String) :
    (d.addItem id name).tags = d.tags := rfl

theorem tags_addTag (d : Draft) (tag : String) (values : List String) :
    (d.addTag tag values).tags =
      Keyed.alter (Naming.tagName tag) (fun earlier => earlier.getD [] ++ values.map Text.trim)
        d.tags :=
  Indexed.entries_alter _ _ _

theorem values?_eq_lookup (d : Draft) (tag : String) : d.values? tag = d.tags.lookup tag :=
  Indexed.value?_eq_lookup _ _

end Draft

end Catalogue

/-- The items of one release and the items that each tag stands for. -/
structure Catalogue where
  items : List Item
  tags : TagList
  deriving Repr

namespace Catalogue

/-- Finishes a draft: the first fault among the items, then the first among the tags, else the
catalogue with every tag flattened. -/
def Draft.build (d : Draft) : Except Fault Catalogue := do
  let listed ← d.items.foldlM listItem .empty
  match tagFault? d.tags with
  | some fault => throw fault
  | none => pure ⟨listed.entries, d.tags.map fun (t, _) => (t, d.flattened t)⟩

/-- The items with the index of their identifiers. -/
def listed (c : Catalogue) : Indexed Item.id := .ofList Item.id c.items

/-- The entry of an item. -/
def item? (c : Catalogue) (id : String) : Option Item := c.listed.find? id

/-- Whether the item is listed. -/
def hasItem (c : Catalogue) (id : String) : Bool := (c.listed.index.lookup id).isSome

/-- Whether the tag is listed, in whatever spelling it is given. -/
def hasTag (c : Catalogue) (tag : String) : Bool := (c.tags.lookup (Naming.tagName tag)).isSome

/-- The name shown for an identifier: that of the entry, else one derived from the identifier. -/
def displayName (c : Catalogue) (id : String) : String :=
  match c.item? id with
  | some i => i.name
  | none => Naming.display id

/-- The items a tag stands for, none if it is not listed. -/
def members (c : Catalogue) (tag : String) : List Item :=
  ((c.tags.lookup (Naming.tagName tag)).getD []).map fun id => ⟨id, c.displayName id⟩

/-- A material with the name, and for a tag the members, that the catalogue has for it. -/
def resolve (c : Catalogue) : Material → Material
  | .item i => .item ⟨i.id, c.displayName i.id⟩
  | .tag t => .tag ⟨t.id, Naming.display t.id, c.members t.id⟩

/-- The entry of an item is the first with its identifier. -/
theorem item?_eq_find? (c : Catalogue) (id : String) : c.item? id = c.items.find? (·.id = id) :=
  Indexed.find?_eq _ _

/-- An item is listed exactly if it has an entry. -/
theorem hasItem_eq_isSome (c : Catalogue) (id : String) : c.hasItem id = (c.item? id).isSome := by
  rw [hasItem, Indexed.isSome_lookup_index, item?]

theorem id_resolve (c : Catalogue) (m : Material) : (c.resolve m).id = m.id := by
  cases m with
  | item i => rw [resolve, Material.id, Material.id]
  | tag t => rw [resolve, Material.id, Material.id]

theorem isTag_resolve (c : Catalogue) (m : Material) : (c.resolve m).isTag = m.isTag := by
  cases m with
  | item i => rw [resolve, Material.isTag, Material.isTag]
  | tag t => rw [resolve, Material.isTag, Material.isTag]

/-- What a catalogue says of a material does not depend on what was known of it before. -/
theorem resolve_resolve (c : Catalogue) (m : Material) : c.resolve (c.resolve m) = c.resolve m := by
  cases m with
  | item i => rw [resolve, resolve]
  | tag t => rw [resolve, resolve]

end Catalogue

namespace ReleaseTable

/-- The members of a tag in one release; a release without a catalogue has none. -/
def members (t : ReleaseTable Catalogue) (release : Release) (tag : String) : List Item :=
  ((t.get? release).map (·.members tag)).getD []

/-- Whether a release lists an item. -/
def hasItem (t : ReleaseTable Catalogue) (release : Release) (id : String) : Bool :=
  ((t.get? release).map (·.hasItem id)).getD false

/-- The name a release shows for an identifier. -/
def displayName (t : ReleaseTable Catalogue) (release : Release) (id : String) : String :=
  match t.get? release with
  | some c => c.displayName id
  | none => Naming.display id

end ReleaseTable

end RecipePlanner

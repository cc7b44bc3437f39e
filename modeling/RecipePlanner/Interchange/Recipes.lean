import RecipePlanner.Json.Fields
import RecipePlanner.Recipe

/-!
# Materials and recipes as JSON

The form in which materials and recipes are exchanged, and how it is read back. A material says
whether it is an item or a tag; a tag may leave out its members.
-/

namespace RecipePlanner

/-- An item as a value. -/
def Item.toJson (i : Item) : Json := .object [("id", .text i.id), ("name", .text i.name)]

/-- An item from its fields. -/
def Item.ofJson? (v : Json) : Option Item :=
  match v.fields? ["id", "name"] with
  | some [some id, some name] => do pure ⟨← id.text?, ← name.text?⟩
  | _ => none

/-- A tag from its fields. -/
def Tag.ofJson? (v : Json) : Option Tag :=
  match v.fields? ["id", "name", "content"] with
  | some [some id, some name, none] => do pure ⟨← id.text?, ← name.text?, []⟩
  | some [some id, some name, some members] => do
    pure ⟨← id.text?, ← name.text?, ← members.listOf? Item.ofJson?⟩
  | _ => none

namespace Material

/-- A material as a value. -/
def toJson : Material → Json
  | .item i => .object [("kind", .text "item"), ("id", .text i.id), ("name", .text i.name)]
  | .tag t =>
    .object [("kind", .text "tag"), ("id", .text t.id), ("name", .text t.name),
      ("content", .list (t.members.map Item.toJson))]

/-- A material of a known kind from its fields. -/
def ofFields? (kind : Json) (fields : Json) : Option Material :=
  match kind with
  | .text "item" => (Item.ofJson? fields).map .item
  | .text "tag" => (Tag.ofJson? fields).map .tag
  | _ => none

/-- A material from a value: an object with its kind among the members, or a list with its kind in
front. -/
def ofJson? : Json → Option Material
  | .object members =>
    match (Json.object members).fields? ["kind"] with
    | some [some kind] => ofFields? kind (.object members)
    | _ => none
  | .list (kind :: items) => ofFields? kind (.list items)
  | _ => none

end Material

/-- An amount from a whole number that is one. -/
def Amount.ofJson? (v : Json) : Option Amount := (v.natUpTo? Word.max32).bind Amount.ofNat?

/-- A method from its key, which stands alone or as the one name of an object that holds nothing. -/
def Method.ofJson? : Json → Option Method
  | .text key => ofKey? key
  | .object [(key, .null)] => ofKey? key
  | _ => none

namespace Stack

/-- A stack as a pair. -/
def toJson (s : Stack) : Json := .list [s.material.toJson, .ofNat s.amount.count]

/-- A stack from a pair. -/
def ofJson? : Json → Option Stack
  | .list [m, n] => do pure ⟨← Material.ofJson? m, ← Amount.ofJson? n⟩
  | _ => none

end Stack

namespace Recipe

/-- A recipe as a value. -/
def toJson (r : Recipe) : Json :=
  .object [("source_type", .text r.method.key), ("filename", .text r.filename),
    ("required", .list (r.needs.map Stack.toJson)),
    ("produced", .list (r.yields.map Stack.toJson))]

/-- A recipe from its fields. -/
def ofJson? (v : Json) : Option Recipe :=
  match v.fields? ["source_type", "filename", "required", "produced"] with
  | some [some method, some filename, some needs, some yields] => do
    pure ⟨← Method.ofJson? method, ← filename.text?, ← needs.listOf? Stack.ofJson?,
      ← yields.listOf? Stack.ofJson?⟩
  | _ => none

end Recipe

end RecipePlanner

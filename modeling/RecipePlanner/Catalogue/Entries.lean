import RecipePlanner.Datum

/-!
# Entries of data files

What data files say of items and tags: an item with a name that may be left out, a tag with its
values, and a value that is an identifier alone or an identifier that may be optional.
-/

namespace RecipePlanner

/-- An item as a data file lists it. -/
structure ItemEntry where
  id : String
  name : Option String
  deriving DecidableEq, Repr

/-- A value of a tag. One that is not required counts only if its item is known. -/
structure TagValue where
  id : String
  required : Bool
  deriving DecidableEq, Repr

/-- A tag as a data file lists it. -/
structure TagEntry where
  id : String
  values : List TagValue
  deriving DecidableEq, Repr

/-- The record of an item. -/
def ItemEntry.shape : Datum.Shape := ⟨"ItemData", ["id", "name"]⟩

/-- An item from its fields. -/
def ItemEntry.ofDatum? (style : Datum.Style) (d : Datum) : Option ItemEntry :=
  match d.fields? style ItemEntry.shape with
  | some [some id, name] => do
    pure ⟨← id.text? style, ← Datum.optional? style (Datum.text? style) name⟩
  | _ => none

namespace TagValue

/-- The names of the fields. -/
def fieldNames : List String := ["id", "required"]

/-- The name of the field that a key stands for, empty where no field is known. A key is a text or
the position of a field, a number of one byte or of more than four. -/
def fieldName? : Datum → Option String
  | .text name => some name
  | .count n => if n ≤ Word.max8 ∨ Word.max32 < n then some (fieldNames[n]?.getD "") else none
  | _ => none

/-- The fields under the keys of a map. -/
def fieldsOfMap? (entries : List (Datum × Datum)) : Option (List (String × Datum)) :=
  entries.mapM fun (key, value) => (fieldName? key).map (·, value)

/-- A value that says whether it is required. The name of its type does not count, and a map stands
for a record, but a list of the fields does not in any notation. -/
def ofFields? (style : Datum.Style) (d : Datum) : Option TagValue := do
  let fields ← match d with
    | .record _ fields => some fields
    | .map entries => fieldsOfMap? entries
    | _ => none
  match ← Fields.byName? fieldNames fields with
  | [some id, required] => pure ⟨← id.text? style, ← Datum.orStandard? true Datum.flag? required⟩
  | _ => none

/-- A value: a text is required. As its form is not known before it is read, all of it has to be
readable, also what stands under other names. -/
def ofDatum? (style : Datum.Style) (d : Datum) : Option TagValue :=
  match d.text? style with
  | some id => some ⟨id, true⟩
  | none => if d.isRead then ofFields? style d else none

/-- The values of a tag, none if they are left out. -/
def listOfDatum? (style : Datum.Style) (d : Option Datum) : Option (List TagValue) :=
  Datum.orStandard? [] (Datum.listOf? (ofDatum? style)) d

/-- The record of a tag that has a file of its own. -/
def fileShape : Datum.Shape := ⟨"TagFileData", ["values"]⟩

/-- The values of a tag in a file of its own. -/
def fileOfDatum? (style : Datum.Style) (d : Datum) : Option (List TagValue) :=
  match d.fields? style fileShape with
  | some [values] => listOfDatum? style values
  | _ => none

end TagValue

/-- The record of a tag. -/
def TagEntry.shape : Datum.Shape := ⟨"TagData", ["id", "values"]⟩

/-- A tag from its fields. -/
def TagEntry.ofDatum? (style : Datum.Style) (d : Datum) : Option TagEntry :=
  match d.fields? style TagEntry.shape with
  | some [some id, values] => do pure ⟨← id.text? style, ← TagValue.listOfDatum? style values⟩
  | _ => none

end RecipePlanner

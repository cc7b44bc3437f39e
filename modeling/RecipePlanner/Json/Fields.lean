import RecipePlanner.Fields
import RecipePlanner.Json.Basic

/-!
# Values of a fixed shape

A record is an object or a list of the values of its fields.
-/

namespace RecipePlanner.Json

/-- The values of the fields, in the order of their names. -/
def fields? (names : List String) : Json → Option (List (Option Json))
  | .object members => Fields.byName? names members
  | .list items => Fields.inOrder? names items
  | _ => none

/-- The items of a list, each read by `read?`. -/
def listOf? {α : Type} (read? : Json → Option α) : Json → Option (List α)
  | .list items => items.mapM read?
  | _ => none

/-- A value that may be null or missing. -/
def optional? {α : Type} (read? : Json → Option α) : Option Json → Option (Option α)
  | none => some none
  | some .null => some none
  | some v => (read? v).map some

end RecipePlanner.Json

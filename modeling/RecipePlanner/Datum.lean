import RecipePlanner.Fields
import RecipePlanner.Json.Basic

/-!
# Data of a known shape

What data files hold once their notation is taken away: texts, truth values, counts, lists and
records. Notations differ in how a value that may be missing is marked and in what may stand for a
record or a text; these differences are one `Style` value, and the readers below follow it.
-/

namespace RecipePlanner

/-- A value of a data file. -/
inductive Datum where
  /-- A value marked as missing. -/
  | absent
  /-- A value marked as present. -/
  | present (value : Datum)
  /-- A text joined to its mark of presence, which only a field that may be missing can hold. -/
  | joined (text : String)
  | text (value : String)
  | flag (value : Bool)
  | count (value : Nat)
  /-- A date, a time of day or both. -/
  | moment (written : String)
  | list (items : List Datum)
  /-- Values under the names of fields, possibly behind the name of a type. -/
  | record (type : Option String) (fields : List (String × Datum))
  /-- Values under keys, where the notation tells them from the names of fields. -/
  | map (entries : List (Datum × Datum))
  /-- A value that no known field holds, such as a fraction. -/
  | other
  /-- A value that cannot be read, of which only the outline is there. -/
  | outline
  deriving Repr, Inhabited

namespace Datum

/-- Whether a list may stand for a record. -/
inductive InOrder where
  /-- No list stands for a record. -/
  | refused
  /-- A list with at most as many items as there are fields. -/
  | closed
  /-- A list whose items beyond the fields are passed over. -/
  | open
  deriving DecidableEq, Repr

/-- What a record is: the name of its type, which may stand in front of it where the notation has
such names, and the names of its fields in their order. -/
structure Shape where
  type : String
  fields : List String
  deriving DecidableEq, Repr

/-- What a notation allows. -/
structure Style where
  /-- Whether a value that may be missing is always marked, as missing or as present. -/
  marksPresence : Bool
  /-- Whether a list may stand for a record. -/
  inOrder : InOrder
  /-- Whether a moment stands for its text; else it stands for a record without known fields. -/
  momentsAreTexts : Bool
  deriving DecidableEq, Repr

/-- What JSON allows. -/
def Style.json : Style := ⟨false, .closed, false⟩

mutual

/-- A JSON value as data: null marks a missing value, and an object is a record. -/
def ofJson : Json → Datum
  | .null => absent
  | .bool b => flag b
  | .number (.whole (.ofNat n)) => count n
  | .number _ => other
  | .text s => text s
  | .list items => list (ofJsonItems items)
  | .object members => record none (ofJsonMembers members)

/-- The items of a list as data. -/
def ofJsonItems : List Json → List Datum
  | [] => []
  | v :: vs => ofJson v :: ofJsonItems vs

/-- The members of an object as data. -/
def ofJsonMembers : List (String × Json) → List (String × Datum)
  | [] => []
  | (k, v) :: ms => (k, ofJson v) :: ofJsonMembers ms

end

mutual

/-- Whether `ok` holds for a value and all values in it. -/
def every (ok : Datum → Bool) : Datum → Bool
  | present v => ok (present v) && every ok v
  | list items => ok (list items) && everyItem ok items
  | record type fields => ok (record type fields) && everyField ok fields
  | map entries => ok (map entries) && everyEntry ok entries
  | v => ok v

/-- Whether `ok` holds for some values and all values in them. -/
def everyItem (ok : Datum → Bool) : List Datum → Bool
  | [] => true
  | v :: vs => every ok v && everyItem ok vs

/-- Whether `ok` holds for the values under some names and all values in them. -/
def everyField (ok : Datum → Bool) : List (String × Datum) → Bool
  | [] => true
  | (_, v) :: fs => every ok v && everyField ok fs

/-- Whether `ok` holds for some keys and values and all values in them. -/
def everyEntry (ok : Datum → Bool) : List (Datum × Datum) → Bool
  | [] => true
  | (k, v) :: es => every ok k && every ok v && everyEntry ok es

end

/-- Whether a value may be passed over where no known field holds it: nothing in it is a text joined
to its mark of presence, which is read only where the field is known. -/
def isPassable : Datum → Bool :=
  every fun
    | joined _ => false
    | _ => true

/-- Whether all of a value can be read before its form is known. -/
def isRead : Datum → Bool :=
  every fun
    | joined _ | outline => false
    | _ => true

section Readers

variable {α : Type} (style : Style)

/-- A text. -/
def text? : Datum → Option String
  | text s => some s
  | moment s => if style.momentsAreTexts then some s else none
  | _ => none

/-- A truth value. -/
def flag? : Datum → Option Bool
  | flag b => some b
  | _ => none

/-- A count of at most `max`. -/
def countUpTo? (max : Nat) : Datum → Option Nat
  | count n => if n ≤ max then some n else none
  | _ => none

/-- The items of a list, each read by `read?`. -/
def listOf? (read? : Datum → Option α) : Datum → Option (List α)
  | list items => items.mapM read?
  | _ => none

/-- The values of the fields of a record, in the order of their names. The name of its type is left
out or is that of the shape; values under other names are passed over. -/
def fields? (shape : Shape) : Datum → Option (List (Option Datum))
  | record type fields =>
    if type.all (· = shape.type) ∧
        fields.all (fun (name, v) => shape.fields.contains name || v.isPassable) then
      Fields.byName? shape.fields fields
    else none
  | moment _ => if style.momentsAreTexts then none else some (shape.fields.map fun _ => none)
  | list items =>
    match style.inOrder with
    | .refused => none
    | .closed => Fields.inOrder? shape.fields items
    | .open => Fields.inOrder? shape.fields (items.take shape.fields.length)
  | _ => none

/-- A value that may be missing. -/
def optional? (read? : Datum → Option α) : Option Datum → Option (Option α)
  | none => some none
  | some absent => some none
  | some (present v) => (read? v).map some
  | some (joined t) => (read? (text t)).map some
  | some v => if style.marksPresence then none else (read? v).map some

/-- A value, or the standard one where nothing is written. -/
def orStandard? (standard : α) (read? : Datum → Option α) : Option Datum → Option α
  | none => some standard
  | some v => read? v

end Readers

end Datum

end RecipePlanner

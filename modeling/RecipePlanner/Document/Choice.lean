import RecipePlanner.Document.Field

/-!
# Ingredients and their alternatives

An ingredient is a name, an object that holds a name in one of several members, or a list of
ingredients any of which will do. `alternatives` lists the names an ingredient stands for, each in
canonical form and once, in written order; entries that name nothing are passed over.
-/

namespace RecipePlanner.Document

/-- The forms in which an object names an ingredient. -/
def ingredientForms : List Form := [["item"], ["tag"], ["key"], ["value"]]

/-- The canonical form of an ingredient's name. -/
def canonicalName (raw : String) : String :=
  if (Text.trimStart raw.toList).head? = some '#' then Naming.tagName raw else Naming.qualified raw

/-- The names with one more, unless it is among them. -/
def addName (found : List String) (name : String) : List String :=
  if name ∈ found then found else found ++ [name]

/-- The name in an ingredient that is not a list. -/
def ingredientName? (v : Json) : Option String :=
  match v with
  | .text raw => if isEmptyText raw then none else some (canonicalName raw)
  | .object _ =>
    (firstForm? ingredientForms v).map fun (form, raw) =>
      if form = ["tag"] then Naming.tagName raw else canonicalName raw
  | _ => none

mutual

/-- Adds the names in an ingredient to those found. -/
def addAlternatives (found : List String) : Json → List String
  | .list items => addAllAlternatives found items
  | .null => found
  | .bool _ => found
  | .number _ => found
  | .text s => ((ingredientName? (.text s)).map (addName found)).getD found
  | .object members => ((ingredientName? (.object members)).map (addName found)).getD found

/-- Adds the names in the items of a list one after the other. -/
def addAllAlternatives (found : List String) : List Json → List String
  | [] => found
  | v :: vs => addAllAlternatives (addAlternatives found v) vs

end

/-- The names an ingredient stands for. -/
def alternatives (v : Json) : List String := addAlternatives [] v

/-- The alternatives of an ingredient, which must have some; `field` is named in the fault. -/
def someAlternatives (field : String) (v : Json) : Except Fault (List String) :=
  match alternatives v with
  | [] => .error (.unexpectedShape field)
  | names => .ok names

/-- The alternatives of the ingredient in a member of a document. -/
def slot (doc : Json) (field : String) : Except Fault (List String) :=
  match doc.field? field with
  | none => .error (.missingField field)
  | some v => someAlternatives field v

end RecipePlanner.Document

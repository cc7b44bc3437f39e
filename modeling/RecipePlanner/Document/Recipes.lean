import RecipePlanner.Document.Choice
import RecipePlanner.Document.Combination
import RecipePlanner.Document.Layout
import RecipePlanner.Json.Reader
import RecipePlanner.Keyed

/-!
# From documents to recipes

Each layout gives a list of slots: the alternatives for an ingredient and how many units of it are
needed. A document stands for one recipe per combination of alternatives, all with the same
product. Faults in the slots are found before those in the product, and both before an excess of
combinations. A document that cannot be read becomes a single mark, so a batch always goes on.
-/

namespace RecipePlanner.Document

/-- An ingredient: the names that will do for it and the units needed. -/
structure Slot where
  names : List String
  amount : Amount
  deriving DecidableEq, Repr

/-- Counts one more cell of a symbol. -/
def countSymbol (counts : List (Char × Nat)) (symbol : Char) : List (Char × Nat) :=
  Keyed.alter symbol (fun n => n.getD 0 + 1) counts

/-- Counts the cells of one row; a space is an empty cell. -/
def countRow (counts : List (Char × Nat)) (row : String) : List (Char × Nat) :=
  (row.toList.filter (· ≠ ' ')).foldl countSymbol counts

/-- The symbols of a pattern in order of first appearance, with the number of their cells. -/
def symbols (doc : Json) : Except Fault (List (Char × Nat)) :=
  match doc.field? "pattern" with
  | none => .error (.missingField "pattern")
  | some v =>
    match v.list?.bind (·.mapM Json.text?) with
    | none => .error (.unexpectedShape "pattern")
    | some rows =>
      match rows.foldl countRow [] with
      | [] => .error (.unexpectedShape "pattern")
      | counts => .ok counts

/-- The slot of a symbol that the key explains. -/
def symbolSlot (key : Json) (entry : Char × Nat) : Except Fault Slot := do
  let name := String.singleton entry.1
  let field := "key." ++ name
  match key.field? name with
  | none => .error (.missingField field)
  | some v =>
    let names ← someAlternatives field v
    pure ⟨names, Amount.clamp entry.2⟩

/-- One slot per symbol of the pattern, with its cells as amount. -/
def shapedSlots (doc : Json) : Except Fault (List Slot) := do
  let counts ← symbols doc
  match doc.field? "key" with
  | none => .error (.missingField "key")
  | some (.object members) => counts.mapM (symbolSlot (.object members))
  | some _ => .error (.unexpectedShape "key")

/-- One slot per ingredient, of which there is at least one. -/
def shapelessSlots (doc : Json) : Except Fault (List Slot) :=
  match doc.field? "ingredients" with
  | none => .error (.missingField "ingredients")
  | some (.list (v :: vs)) =>
    (v :: vs).mapM fun v => (someAlternatives "ingredients" v).map fun names => ⟨names, Amount.one⟩
  | some _ => .error (.unexpectedShape "ingredients")

/-- One slot of one unit per field. -/
def fieldSlots (doc : Json) (fields : List String) : Except Fault (List Slot) :=
  fields.mapM fun field => (slot doc field).map fun names => ⟨names, Amount.one⟩

/-- The fields of the smithing layout; older documents have no template. -/
def smithingFields (doc : Json) : List String :=
  if (doc.field? "template").isSome then ["template", "base", "addition"] else ["base", "addition"]

/-- One recipe per combination of alternatives. -/
def fanOut (method : Method) (filename : String) (slots : List Slot) (product : Stack) :
    Except Fault (List Recipe) := do
  let choices ← combinations (slots.map (·.names))
  pure <| choices.map fun names =>
    { method, filename
      needs := names.zipWith (fun name slot => ⟨Material.parse name, slot.amount⟩) slots
      yields := [product] }

/-- The recipes made from the given slots. -/
def assemble (doc : Json) (filename : String) (method : Method)
    (slots : Except Fault (List Slot)) : Except Fault (List Recipe) := do
  -- A fault in the slots is told before one in the product.
  let slots ← slots
  let product ← productStack doc
  fanOut method filename slots product

/-- The recipes of a document. One without a type, or with a type that means nothing, is marked as
unreadable. -/
def recipes (doc : Json) (filename : String) : Except Fault (List Recipe) :=
  match (doc.field? "type").bind Json.text? with
  | none => .ok [Recipe.unreadable filename]
  | some type =>
    match Layout.ofType type with
    | .shaped => assemble doc filename .shaped (shapedSlots doc)
    | .shapeless => assemble doc filename .shapeless (shapelessSlots doc)
    | .single method => assemble doc filename method (fieldSlots doc ["ingredient"])
    | .smithing => assemble doc filename .smithing (fieldSlots doc (smithingFields doc))
    | .transmute => assemble doc filename .transmute (fieldSlots doc ["input", "material"])
    | .cosmetic => .ok [Recipe.cosmetic filename]
    | .unrecognized => .ok [Recipe.unreadable filename]

/-- The recipes written in a text, or what is wrong with it. -/
def readRecipes (text filename : String) : Except Fault (List Recipe) :=
  match Json.parse? text with
  | none => .error .notJson
  | some doc => recipes doc filename

/-- The recipes written in a text; a faulty text is marked as unreadable. -/
def readOrMark (text filename : String) : List Recipe :=
  match readRecipes text filename with
  | .ok rs => rs
  | .error _ => [Recipe.unreadable filename]

end RecipePlanner.Document

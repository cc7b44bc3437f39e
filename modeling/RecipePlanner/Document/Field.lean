import RecipePlanner.Json.Basic
import RecipePlanner.Recipe

/-!
# Fields of a recipe document

Documents write the same thing in several forms, depending on their age. A form is the path of
member names at which a text may stand; of a list of forms the first one that leads to a text with
something other than blanks in it counts.
-/

namespace RecipePlanner.Document

/-- What keeps a document from being read as recipes. -/
inductive Fault where
  | missingField (field : String)
  | unexpectedShape (field : String)
  | notJson
  | tooManyCombinations (count : Nat)
  deriving DecidableEq, Repr

/-- The most combinations of ingredients that one document may stand for. -/
def maxCombinations : Nat := 4096

/-- The wording of a fault. -/
def Fault.message : Fault → String
  | missingField field => "missing field '" ++ field ++ "'"
  | unexpectedShape field => "unexpected shape for field '" ++ field ++ "'"
  | notJson => "invalid JSON"
  | tooManyCombinations n =>
    toString n ++ " ingredient combinations exceed the limit of " ++ toString maxCombinations

/-- A path of member names. -/
abbrev Form := List String

/-- The name of a form: its member names with dots between them. -/
def Form.name (f : Form) : String := ".".intercalate f

/-- Whether a text has only blanks in it. -/
def isEmptyText (s : String) : Bool := s.toList.all Text.isBlank

/-- The value at the end of a path. -/
def valueAt? (f : Form) (doc : Json) : Option Json := f.foldlM (fun v name => v.field? name) doc

/-- The text at the end of a path, if it is one and not empty. -/
def textAt? (f : Form) (doc : Json) : Option String :=
  ((valueAt? f doc).bind Json.text?).filter fun s => !isEmptyText s

/-- The first form that leads to a text, with the text. -/
def firstForm? (forms : List Form) (doc : Json) : Option (Form × String) :=
  forms.findSome? fun f => (textAt? f doc).map fun s => (f, s)

/-- The forms in which a document names its product. -/
def resultForms : List Form :=
  [["result"], ["result", "id"], ["result", "item"], ["result", "value"], ["result", "key"],
    ["result", "value", "id"], ["id"]]

/-- The product. Without one the fault is that its field is missing, or that it has no known
form. -/
def product (doc : Json) : Except Fault Material :=
  match firstForm? resultForms doc with
  | some (_, raw) => .ok (Material.ofItemId (Naming.qualified raw))
  | none =>
    if (doc.field? "result").isSome then .error (.unexpectedShape "result")
    else .error (.missingField "result")

/-- How many units the document yields: the count inside its result, else the count beside it. What
is no number counts as one. -/
def productAmount (doc : Json) : Amount :=
  let declared := ((doc.field? "result").bind (·.field? "count")).or (doc.field? "count")
  match declared with
  | some (.number n) => Amount.ofDeclared n.truncated
  | _ => Amount.one

/-- What the document yields. -/
def productStack (doc : Json) : Except Fault Stack := do
  let material ← product doc
  pure ⟨material, productAmount doc⟩

end RecipePlanner.Document

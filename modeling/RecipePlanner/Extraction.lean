import RecipePlanner.Catalogue
import RecipePlanner.Document.Recipes

/-!
# Extraction

A batch of documents becomes one list of recipes, in the order of the documents. Every material is
looked up in a catalogue, so that tags carry their members, and the needs of a recipe are merged by
material. The marks of documents that yield nothing stay in the list and are counted; `productive`
leaves them out.
-/

namespace RecipePlanner

/-- A recipe document: where it came from and its text. -/
structure RecipeText where
  filename : String
  text : String
  deriving DecidableEq, Repr

namespace Extraction

/-- A recipe with names and members from the catalogue and one stack per need. -/
def attach (c : Catalogue) (r : Recipe) : Recipe := (r.mapMaterials c.resolve).consolidate

/-- The recipes of a batch. -/
def extract (c : Catalogue) (documents : List RecipeText) : List Recipe :=
  (documents.flatMap fun d => Document.readOrMark d.text d.filename).map (attach c)

/-- The recipes that make something. -/
def productive (rs : List Recipe) : List Recipe := rs.filter (·.isProductive)

/-- What became of a batch. -/
structure Tally where
  documents : Nat
  emitted : Nat
  kept : Nat
  unknown : Nat
  ignored : Nat
  emptyOutput : Nat
  deriving DecidableEq, Repr

/-- Counts one recipe by what it is: a mark, one without a product, or one that is kept. -/
def Tally.count (t : Tally) (r : Recipe) : Tally :=
  match r.method with
  | .unknown => { t with unknown := t.unknown + 1 }
  | .ignored => { t with ignored := t.ignored + 1 }
  | _ =>
    if r.yields.isEmpty then { t with emptyOutput := t.emptyOutput + 1 }
    else { t with kept := t.kept + 1 }

/-- The tally of the recipes that a number of documents gave. -/
def tally (documents : Nat) (rs : List Recipe) : Tally :=
  rs.foldl Tally.count ⟨documents, rs.length, 0, 0, 0, 0⟩

end Extraction

end RecipePlanner

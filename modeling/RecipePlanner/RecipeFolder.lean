import RecipePlanner.DataFile
import RecipePlanner.Extraction

/-!
# Recipe documents in folders

The recipes of a release stand in a folder of their own, one document per file. Documents are listed
in the order of the names on the way to them, and a file whose bytes are no text is an empty
document.
-/

namespace RecipePlanner.RecipeFolder

/-- The folder of the recipes of a release: the one given, in the folder of the release, or that of
data packs, whose earlier spelling counts if only it is there. -/
def ofRelease (t : FileTree) (base : String) (given : Option String) (release : Release) : String :=
  let folder := Files.Path.join base release.text
  match given with
  | some sub => Files.Path.join folder sub
  | none =>
    let data := Files.Path.join (Files.Path.join folder "data") Naming.defaultNamespace
    let recent := Files.Path.join data "recipe"
    let earlier := Files.Path.join data "recipes"
    -- The earlier spelling counts only where the recent one is missing.
    if !t.isFolderAt recent && t.isFolderAt earlier then earlier else recent

/-- Whether a file holds a document, by the extension of its name; a file that was listed alone has
the name given. -/
def isDocument (name : String) (names : List String) : Bool :=
  Files.Path.extension? (names.getLast?.getD name) = some DataFile.Format.json.extension

/-- The document in a file. -/
def document (file : FileTree.Located) : RecipeText :=
  ⟨FileTree.relative file.1, (Text.ofBytes? file.2).getD ""⟩

/-- The documents of a tree that is called `name`. -/
def documentsOf (name : String) (t : FileTree) : List RecipeText :=
  (t.filesBelow.filter fun file => isDocument name file.1).map document

/-- The documents in a folder. -/
def documents (t : FileTree) (folder : String) : Except DataFault (List RecipeText) :=
  match t.find folder with
  | .ok found => .ok (documentsOf folder found)
  | .error fault => .error (.file fault)

/-- The recipes in the folder of a release that make something, and the tally of all of them. -/
def extract (c : Catalogue) (t : FileTree) (release : Release) (folder : String) :
    Except DataFault (List Recipe × Extraction.Tally) := do
  if t.isFolderAt folder then
    let documents ← documents t folder
    let recipes := Extraction.extract c documents
    pure (Extraction.productive recipes, Extraction.tally documents.length recipes)
  else throw (.missingRecipeFolder release folder)

end RecipePlanner.RecipeFolder

import RecipePlanner.Catalogue.Entries
import RecipePlanner.DataFile

/-!
# Catalogues in folders

The folder of a catalogue holds the list of items, possibly a list of tags, and possibly folders
with a file per tag, whose path names the tag. All entries of a tag, wherever they stand, add to its
values; a value that is not required is left out if it is an item that is not listed. A base folder
holds one folder per release, each with the folder of its catalogue.
-/

namespace RecipePlanner

namespace Catalogue

/-- The folder of a catalogue in the folder of its release. -/
def folderName : String := "registry"

/-- The folders with a file per tag, the later spelling first. -/
def tagFolders : List String := ["tags/item", "tags/items"]

/-- What the files of a catalogue list: its items, and the entries of its tags, of which several may
be for one tag. -/
structure Listing where
  items : List ItemEntry
  tags : List TagEntry
  deriving DecidableEq, Repr

namespace Draft

/-- The identifiers of the values that count. -/
def effective (d : Draft) (values : List TagValue) : List String :=
  (values.filter fun v => v.required || Naming.isTagName v.id || d.hasItem v.id).map (·.id)

/-- Enters what an item is listed with. -/
def enterItem (d : Draft) (e : ItemEntry) : Draft := d.addItem e.id e.name

/-- Enters the values of a tag that count. -/
def enterTag (d : Draft) (e : TagEntry) : Draft := d.addTag e.id (d.effective e.values)

/-- The draft of a listing. Items come first: whether a value counts depends on all of them. -/
def ofListing (l : Listing) : Draft := l.tags.foldl enterTag (l.items.foldl enterItem empty)

end Draft

/-! ## Reading listings -/

/-- The items listed in the folder of a catalogue. -/
def readItems (t : FileTree) (folder : String) : Except DataFault (List ItemEntry) := do
  DataFile.readList t (← DataFile.require t folder "items") "items" ItemEntry.ofDatum?

/-- The entries in the list of tags in the folder of a catalogue, none if there is no list. -/
def readTags (t : FileTree) (folder : String) : Except DataFault (List TagEntry) := do
  match ← DataFile.find? t folder "tags" with
  | none => pure []
  | some path => DataFile.readList t path "tags" TagEntry.ofDatum?

/-- Whether a file in a tag folder is for a tag. -/
def isTagFile (file : FileTree.Located) : Bool :=
  (file.1.getLast?.bind Files.Path.extension?) = some DataFile.Format.json.extension

/-- The tag that a file in a tag folder is for: its path without the extension. -/
def tagOfFile (names : List String) : String :=
  let path := names.dropLast ++ (names.getLast?.map Files.Path.withoutExtension).toList
  "#" ++ Naming.defaultNamespace ++ ":" ++ FileTree.relative path

/-- The entry in a file of a tag folder. -/
def readTagFile (folder : String) (file : FileTree.Located) : Except DataFault TagEntry := do
  let path := Files.Path.join folder (FileTree.relative file.1)
  let values ← DataFile.parse path (FileTree.textOf file.2) fun text =>
    (DataFile.Format.json.parse? text).bind fun (style, d) => TagValue.fileOfDatum? style d
  pure ⟨tagOfFile file.1, values⟩

/-- The entries in the files of a tag folder, none if it is not there. -/
def readTagFolder (t : FileTree) (folder : String) : Except DataFault (List TagEntry) :=
  match t.find folder with
  | .ok (.folder entries) =>
    ((FileTree.folder entries).filesBelow.filter isTagFile).mapM (readTagFile folder)
  | _ => .ok []

/-- What the files in the folder of a catalogue list. -/
def readListing (t : FileTree) (folder : String) : Except DataFault Listing := do
  let items ← readItems t folder
  let listed ← readTags t folder
  let filed ← tagFolders.mapM fun sub => readTagFolder t (Files.Path.join folder sub)
  pure ⟨items, listed ++ filed.flatten⟩

/-- The catalogue in a folder. -/
def load (t : FileTree) (folder : String) : Except DataFault Catalogue := do
  (Draft.ofListing (← readListing t folder)).build.mapError (.catalogue folder)

/-- The folder of the catalogue of a release. -/
def folderOf (base : String) (release : Release) : String :=
  Files.Path.join (Files.Path.join base release.text) folderName

end Catalogue

namespace ReleaseTable

/-- The releases with a catalogue folder below a base folder, in ascending order. -/
def discover (t : FileTree) (base : String) : Except DataFault (List Release) := do
  let entries ← (t.entriesAt base).mapError .file
  let carriesCatalogue := fun (entry : String × FileTree) => entry.2.isFolderAt Catalogue.folderName
  pure (Release.sort ((entries.filter carriesCatalogue).map fun (name, _) => ⟨name⟩))

/-- The catalogues of releases below a base folder. -/
def load (t : FileTree) (base : String) (releases : List Release) :
    Except DataFault (ReleaseTable Catalogue) :=
  releases.foldlM (fun table release => do
    pure (table.insert release (← Catalogue.load t (Catalogue.folderOf base release)))) empty

end ReleaseTable

end RecipePlanner

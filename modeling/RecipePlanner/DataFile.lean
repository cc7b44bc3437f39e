import RecipePlanner.Catalogue
import RecipePlanner.FileTree
import RecipePlanner.Json.Data
import RecipePlanner.Ron.Reader
import RecipePlanner.Toml.Reader

/-!
# Data files

A data file is written in one of three formats, which its extension names. A file of a given name is
sought in all of them, and two of them at once are refused. A file holds a record or a list; as TOML
has no list on its own, there the list is the value of a key.
-/

namespace RecipePlanner

/-- Why data cannot be loaded. -/
inductive DataFault where
  | missingRequired (name folder : String)
  | unsupportedFormat (path : String)
  | conflictingFormats (first second : String)
  /-- The text of a file is not of its format, or its data have another shape. -/
  | malformed (path : String)
  | missingKey (path key : String)
  | missingRecipeFolder (release : Release) (folder : String)
  | catalogue (folder : String) (fault : Catalogue.Fault)
  | file (fault : FileTree.Fault)
  deriving DecidableEq, Repr

namespace DataFile

/-- A format of data files. -/
inductive Format where
  | ron
  | toml
  | json
  deriving DecidableEq, Repr

namespace Format

/-- The formats in the order in which they are sought. -/
def all : List Format := [ron, toml, json]

/-- The extension that names a format. -/
def extension : Format → String
  | ron => "ron"
  | toml => "toml"
  | json => "json"

/-- The format that the extension of a path names. -/
def ofPath? (path : String) : Option Format :=
  (Files.Path.extension? path).bind fun e => all.find? (·.extension = e)

/-- The data that a text writes, and what the format allows in them. -/
def parse? : Format → String → Option (Datum.Style × Datum)
  | ron, text => (Ron.parse? text).map fun d => (⟨!d.mayOmit, .refused, false⟩, d.value)
  | toml, text => (Toml.parse? text).map fun d => (⟨false, .open, false⟩, d)
  | json, text => (Json.parseData? text).map fun d => (.json, d)

/-- The data that a text writes which holds a list. In TOML moments stand for texts there. -/
def parseList? : Format → String → Option (Datum.Style × Datum)
  | toml, text =>
    ((Toml.parse? text).bind Toml.withMoments?).map fun d => (⟨false, .closed, true⟩, d)
  | format, text => format.parse? text

end Format

/-- The file of a name in a folder, in whichever format there is. -/
def find? (t : FileTree) (folder name : String) : Except DataFault (Option String) :=
  let paths := Format.all.map fun f => Files.Path.join folder (name ++ "." ++ f.extension)
  match paths.filter t.isFileAt with
  | [] => .ok none
  | [path] => .ok (some path)
  | first :: second :: _ => .error (.conflictingFormats first second)

/-- The file of a name in a folder, which there has to be. -/
def require (t : FileTree) (folder name : String) : Except DataFault String := do
  match ← find? t folder name with
  | some path => pure path
  | none => throw (.missingRequired name folder)

/-- A value, or the fault that the file at a path is malformed. -/
def orMalformed {α : Type} (path : String) : Option α → Except DataFault α
  | some a => .ok a
  | none => .error (.malformed path)

/-- What the text of the file at a path writes, read by `read?`. -/
def parse {α : Type} (path : String) (text : Except FileTree.Fault String)
    (read? : String → Option α) : Except DataFault α := do
  orMalformed path (read? (← text.mapError .file))

/-- What the file at a path writes in its format, read by `read?`. -/
def readFile {α : Type} (t : FileTree) (path : String) (read? : Format → String → Option α) :
    Except DataFault (Format × α) :=
  match Format.ofPath? path with
  | none => .error (.unsupportedFormat path)
  | some format => (parse path (t.textAt path) (read? format)).map (format, ·)

/-- The record in the file at a path. -/
def readRecord {α : Type} (t : FileTree) (path : String)
    (read? : Datum.Style → Datum → Option α) : Except DataFault α := do
  let (_, style, data) ← readFile t path Format.parse?
  orMalformed path (read? style data)

/-- The list in the file at a path, in TOML the value of `key`. -/
def readList {α : Type} (t : FileTree) (path key : String)
    (read? : Datum.Style → Datum → Option α) : Except DataFault (List α) := do
  let (format, style, data) ← readFile t path Format.parseList?
  -- Only in TOML does the list stand under a key.
  let items ← match format, data with
    | .toml, .record _ entries =>
      match entries.lookup key with
      | some v => pure v
      | none => throw (.missingKey path key)
    | .toml, _ => throw (.missingKey path key)
    | _, data => pure data
  orMalformed path (items.listOf? (read? style))

end DataFile

namespace DataFault

/-- The wording of a fault, where it has one of its own. -/
def message? : DataFault → Option String
  | missingRequired name folder =>
    let extensions := ",".intercalate (DataFile.Format.all.map (·.extension))
    some ("no " ++ name ++ ".\x7b" ++ extensions ++ "\x7d in " ++ folder)
  | unsupportedFormat path => some (path ++ ": expected a .ron, .toml or .json extension")
  | conflictingFormats first second =>
    some ("both " ++ first ++ " and " ++ second ++ " exist; keep one")
  | malformed _ => none
  | missingKey path key =>
    some ("cannot read " ++ path ++ ": missing key '" ++ key ++ "' in TOML file")
  | missingRecipeFolder release folder =>
    some ("no recipe directory for " ++ release.text ++ " at " ++ folder)
  | catalogue folder fault => some ("registry in " ++ folder ++ " rejected: " ++ fault.message)
  | file _ => none

end DataFault

end RecipePlanner

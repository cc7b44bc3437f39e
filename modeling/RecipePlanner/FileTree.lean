import RecipePlanner.Files.Path
import RecipePlanner.Keyed
import RecipePlanner.Text.Bytes

/-!
# Files and folders

A tree of files and folders, and how a path leads through it. Only a folder has anything below it,
`..` leads back to the folder above, and `.` and empty parts stay where they are but need a folder
there. `filesBelow` lists every file with its path, each folder's entries in the order of their
names.
-/

namespace RecipePlanner

/-- A file with its bytes, or a folder with its entries by name. -/
inductive FileTree where
  | file (bytes : List UInt8)
  | folder (entries : List (String × FileTree))
  deriving Inhabited

namespace FileTree

/-- Why a file or folder cannot be read. -/
inductive Fault where
  | notFound
  | notAFolder
  | isAFolder
  /-- The bytes of a file are no text. -/
  | notText
  deriving DecidableEq, Repr

/-- A folder without entries. -/
def empty : FileTree := folder []

/-- The entries of a folder; a file has none. -/
def entries : FileTree → List (String × FileTree)
  | file _ => []
  | folder es => es

/-! ## Making trees -/

/-- A tree with what is at a path changed by `f`, in folders that are made if need be. -/
def alterAt (f : Option FileTree → FileTree) : List String → Option FileTree → FileTree
  | [], t => f t
  | name :: path, t =>
    folder (Keyed.alter name (fun below => alterAt f path below) (t.getD empty).entries)

/-- The tree with a file at a path. -/
def addFile (t : FileTree) (path : String) (bytes : List UInt8) : FileTree :=
  alterAt (fun _ => file bytes) (Files.Path.parts path) (some t)

/-- The tree with a folder at a path, which keeps the entries it has. -/
def addFolder (t : FileTree) (path : String) : FileTree :=
  alterAt (fun there => folder (there.getD empty).entries) (Files.Path.parts path) (some t)

/-! ## Following paths -/

/-- What the parts of a path lead to from a place with the folders `above` it, nearest first. -/
def follow : (above : List FileTree) → FileTree → List String → Except Fault FileTree
  | _, here, [] => .ok here
  | _, file _, _ :: _ => .error .notAFolder
  | above, folder es, part :: rest =>
    if part = "" ∨ part = "." then follow above (folder es) rest
    else if part = ".." then
      match above with
      | [] => follow [] (folder es) rest
      | up :: above => follow above up rest
    else match es.lookup part with
      | none => .error .notFound
      | some below => follow (folder es :: above) below rest

/-- What a path leads to; the empty path leads nowhere. -/
def find (t : FileTree) (path : String) : Except Fault FileTree :=
  if path = "" then .error .notFound else follow [] t (Files.Path.pieces path)

/-- Whether there is a file at a path. -/
def isFileAt (t : FileTree) (path : String) : Bool :=
  match t.find path with
  | .ok (file _) => true
  | _ => false

/-- Whether there is a folder at a path. -/
def isFolderAt (t : FileTree) (path : String) : Bool :=
  match t.find path with
  | .ok (folder _) => true
  | _ => false

/-- The entries of the folder at a path. -/
def entriesAt (t : FileTree) (path : String) : Except Fault (List (String × FileTree)) := do
  match ← t.find path with
  | folder es => pure es
  | file _ => throw .notAFolder

/-- The text of a file with these bytes. -/
def textOf (bytes : List UInt8) : Except Fault String :=
  match Text.ofBytes? bytes with
  | some s => .ok s
  | none => .error .notText

/-- The text of the file at a path. -/
def textAt (t : FileTree) (path : String) : Except Fault String := do
  match ← t.find path with
  | folder _ => throw .isAFolder
  | file bytes => textOf bytes

/-! ## All files -/

/-- A file: the names that lead to it, and its bytes. -/
abbrev Located := List String × List UInt8

/-- The path of a file from where it was listed. -/
def relative (names : List String) : String := "/".intercalate names

/-- The lists of files of some entries, one after the other in the order of the entries' names,
each file with the name of its entry in front. -/
def inOrder (listed : List (String × List Located)) : List Located :=
  (listed.mergeSort fun a b => a.1 ≤ b.1).flatMap fun (name, files) =>
    files.map fun (path, bytes) => (name :: path, bytes)

mutual

/-- Every file of a tree. -/
def filesBelow : FileTree → List Located
  | file bytes => [([], bytes)]
  -- Entries are listed first and put in order afterwards, so the recursion follows the tree.
  | folder es => inOrder (filesOfEntries es)

/-- The files of each entry. -/
def filesOfEntries : List (String × FileTree) → List (String × List Located)
  | [] => []
  | (name, t) :: rest => (name, filesBelow t) :: filesOfEntries rest

end

end FileTree

end RecipePlanner

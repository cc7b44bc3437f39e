import RecipePlanner.Text.Split

/-!
# Paths as text

A path is a text of parts between slashes. Empty parts and `.` name no place of their own. The
last part is the file name; its stem and extension are what stands before and behind its last dot,
except that a dot at the very start hides a file and separates nothing.
-/

namespace RecipePlanner.Files.Path

/-- What stands between the slashes of a path. -/
def pieces (path : String) : List String :=
  (Text.splitOn (· = '/') path.toList).map String.ofList

/-- The parts of a path that name a place. -/
def parts (path : String) : List String :=
  (pieces path).filter fun p => p ≠ "" ∧ p ≠ "."

/-- The last part, unless it is `..`. -/
def fileName? (path : String) : Option String :=
  (parts path).getLast?.filter (· ≠ "..")

/-- What stands before and behind the last dot of a file name; a name without a dot, or with its
only dot at the start, has no second part. -/
def cutAtDot (name : String) : String × Option String :=
  match Text.cutFirst '.' name.toList.reverse with
  | none => (name, none)
  | some (_, []) => (name, none)
  | some (after, before) => (String.ofList before.reverse, some (String.ofList after.reverse))

/-- The file name without its extension. -/
def stem? (path : String) : Option String := (fileName? path).map fun n => (cutAtDot n).1

/-- The extension of the file name. -/
def extension? (path : String) : Option String := (fileName? path).bind fun n => (cutAtDot n).2

/-- A file name without its extension and the dot in front of it. That dot stays where `..` is left,
which is no file name and has no dot that separates anything. -/
def withoutExtension (name : String) : String :=
  match cutAtDot name with
  | (".", some _) => ".."
  | (stem, _) => stem

/-- Whether a path starts at the root of all files. -/
def isAbsolute (path : String) : Bool := path.toList.head? = some '/'

/-- The path `sub` below `dir`. An absolute `sub` stands alone, and one slash separates the two
unless `dir` is empty or ends in one. -/
def join (dir sub : String) : String :=
  if isAbsolute sub then sub
  else if dir = "" ∨ dir.toList.getLast? = some '/' then dir ++ sub
  else dir ++ "/" ++ sub

end RecipePlanner.Files.Path

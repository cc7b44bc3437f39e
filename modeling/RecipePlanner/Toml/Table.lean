import RecipePlanner.Datum
import RecipePlanner.Keyed

/-!
# Tables of TOML

A TOML text is a list of statements: the headers of tables and of the elements of table lists, and
values given to keys. They build one table. A table is given by one header, or by the dots of keys,
but not by both, and a key is given one value. What a longer header needs above it is there by
implication until its own header comes.
-/

namespace RecipePlanner.Toml

/-- A statement, its key as the names between the dots. -/
inductive Statement where
  /-- The header of a table. -/
  | table (key : List String)
  /-- The header of one more element of a table list. -/
  | element (key : List String)
  /-- A value for a key. -/
  | value (key : List String) (value : Datum)

/-- What a table is there for. -/
inductive Origin where
  /-- A header, or the text as a whole. -/
  | header
  /-- A longer header. -/
  | implied
  /-- The dots of a key. -/
  | dotted
  deriving DecidableEq, Repr

/-- What a name stands for. -/
inductive Node where
  | value (value : Datum)
  | table (origin : Origin) (entries : List (String × Node))
  /-- A table list: the finished elements and the entries of the last one. -/
  | elements (finished : List Datum) (last : List (String × Node))

/-- The names of a table with what they stand for. -/
abbrev Entries := List (String × Node)

namespace Node

mutual

/-- The data of a node. -/
def datum : Node → Datum
  | value v => v
  | table _ entries => .record none (fields entries)
  | elements finished last => .list (finished ++ [.record none (fields last)])

/-- The data of entries. -/
def fields : List (String × Node) → List (String × Datum)
  | [] => []
  | (k, n) :: rest => (k, datum n) :: fields rest

end

end Node

namespace Entries

/-- The entries with a name standing for a node. -/
def put (name : String) (n : Node) (entries : Entries) : Entries :=
  Keyed.alter name (fun _ => n) entries

/-- The entries with the table at the end of a path changed by `change`, which is given what that
table is there for; `origin` is what the first table is there for, and `new` what tables are there
for that the path has to make. A path through the dots of a key does not enter a table that has a
header, and a table list is entered at its last element. -/
def update (new : Origin) (change : Origin → Entries → Option Entries) :
    (path : List String) → (origin : Origin) → Entries → Option Entries
  | [], origin, entries => change origin entries
  | name :: path, _, entries =>
    match entries.lookup name with
    | none => do pure (put name (.table new (← update new change path new [])) entries)
    | some (.value _) => none
    | some (.table origin inner) =>
      -- Dots extend what dots or longer headers made, never a table with a header of its own.
      if new = .dotted ∧ origin = .header then none
      else do pure (put name (.table origin (← update new change path origin inner)) entries)
    | some (.elements finished last) => do
      pure (put name (.elements finished (← update new change path .header last)) entries)

/-- The entries with a table opened by its header: it is new or was implied, and comes last. -/
def openTable (name : String) (entries : Entries) : Option Entries :=
  let others := entries.filter fun (other, _) => other ≠ name
  match entries.lookup name with
  | none => some (others ++ [(name, .table .header [])])
  | some (.table .implied inner) => some (others ++ [(name, .table .header inner)])
  | some _ => none

/-- The entries with a table list, which may be new, extended by one element. -/
def openElement (name : String) (entries : Entries) : Option Entries :=
  match entries.lookup name with
  | none => some (put name (.elements [] []) entries)
  | some (.elements finished last) =>
    some (put name (.elements (finished ++ [.record none (Node.fields last)]) []) entries)
  | some _ => none

/-- The entries with a value for a name, which has to be new. Behind dots the table has to be one
that dots made, and without dots one that they did not. -/
def setValue (name : String) (value : Datum) (behindDots : Bool) (origin : Origin)
    (entries : Entries) : Option Entries :=
  if (origin = .dotted) ≠ behindDots ∨ (entries.lookup name).isSome then none
  else some (put name (.value value) entries)

/-- The entries with a value for a key. -/
def assign (key : List String) (value : Datum) (origin : Origin) (entries : Entries) :
    Option Entries :=
  match key.getLast? with
  | none => none
  | some name =>
    update .dotted (setValue name value (key.length > 1)) key.dropLast origin entries

end Entries

/-- A table on its way: what the text has given so far and the path to the table whose header came
last. -/
structure Draft where
  entries : Entries
  here : List String

namespace Draft

/-- The draft before the first statement. -/
def empty : Draft := ⟨[], []⟩

/-- The draft after one more header; `enter` opens its last name. -/
def openAt (d : Draft) (key : List String) (enter : String → Entries → Option Entries) :
    Option Draft :=
  match key.getLast? with
  | none => none
  | some name =>
    (Entries.update .implied (fun _ => enter name) key.dropLast .header d.entries).map (⟨·, key⟩)

/-- The draft after one more statement. -/
def add (d : Draft) : Statement → Option Draft
  | .table key => d.openAt key Entries.openTable
  | .element key => d.openAt key Entries.openElement
  | .value key v =>
    (Entries.update .implied (Entries.assign key v) d.here .header d.entries).map (⟨·, d.here⟩)

end Draft

/-- The record that statements build, if they agree with each other. -/
def build? (statements : List Statement) : Option Datum :=
  (statements.foldlM Draft.add Draft.empty).map fun d => .record none (Node.fields d.entries)

end RecipePlanner.Toml

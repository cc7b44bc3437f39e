import RecipePlanner.Ron.Gap
import RecipePlanner.Ron.Number
import RecipePlanner.Ron.Text

/-!
# Reading RON

Records in parentheses with bare field names, possibly behind the name of their type, lists in
brackets, maps in braces, `Some(…)` and `None` around values that may be missing, texts, numbers and
truth values. A comma may stand behind the last entry. Tuples, single characters and names alone are
read and are no data of a known shape. In front of its value a text may enable extensions, one of
which lets the mark around a value be left out.

Values nest at most `maxNesting` levels deep, of which an entry takes two and a marked value one;
the reader recurses on the levels left.
-/

namespace RecipePlanner.Ron

open Text (Reader)

/-! ## Values around others -/

/-- What all values of a text share. -/
structure Scope where
  /-- Whether marks of presence may be left out. -/
  mayOmit : Bool
  /-- How many entries a value may have at most. -/
  bound : Nat

/-- The readers of values inside another value. -/
structure Inner where
  /-- Of a value that is marked as present. -/
  marked : Reader Datum
  /-- Of an entry of a list, a map, a record or a tuple. -/
  entry : Reader Datum

/-- A name, a colon and a value. -/
def readField (value : Reader Datum) (s : List Char) : Option ((String × Datum) × List Char) := do
  let (name, rest) ← readName (skip s)
  match skip rest with
  | ':' :: rest =>
    let (v, rest) ← value rest
    pure ((name, v), rest)
  | _ => none

/-- Whether the first entry behind a parenthesis is a field. -/
def startsField (s : List Char) : Bool :=
  (readName (skip s)).any fun (_, rest) => (skip rest).head? = some ':'

/-- What stands behind an opening parenthesis: the fields of a record, which may be none, or the
items of a tuple, which have to be passable as no known field holds them. -/
def readGroup (scope : Scope) (type : Option String) (value : Reader Datum) (s : List Char) :
    Option (Datum × List Char) :=
  if startsField s ∨ (skip s).head? = some ')' then
    (series.read scope.bound (readField value) ')' s).map fun (fields, rest) =>
      (.record type fields, rest)
  else
    (series.read scope.bound value ')' s).bind fun (items, rest) =>
      if items.all Datum.isPassable then some (.other, rest) else none

/-- A key, a colon and a value. -/
def readEntry (value : Reader Datum) (s : List Char) : Option ((Datum × Datum) × List Char) := do
  let (key, rest) ← value s
  match skip rest with
  | ':' :: rest =>
    let (v, rest) ← value rest
    pure ((key, v), rest)
  | _ => none

/-- A value behind its mark of presence, in parentheses; without them only where marks may be left
out. -/
def readPresent (scope : Scope) (inner : Inner) (s : List Char) : Option (Datum × List Char) :=
  match skip s with
  | '(' :: rest =>
    match series.read scope.bound inner.marked ')' rest with
    | some ([v], rest) => some (.present v, rest)
    | _ => none
  | rest =>
    if scope.mayOmit then (inner.marked rest).map fun (v, rest) => (.present v, rest) else none

/-- What a name stands for: a record or a tuple of this type, or a value without parts. -/
def readNamed (scope : Scope) (inner : Option Inner) (type : String) (s : List Char) :
    Option (Datum × List Char) :=
  match skip s with
  | '(' :: rest => inner.bind fun inner => readGroup scope (some type) inner.entry rest
  | _ => some (.other, s)

/-- A raw text joined to its mark of presence. -/
def readJoined : List Char → Option (Datum × List Char)
  | 'S' :: 'o' :: 'm' :: 'e' :: 'r' :: rest =>
    (readRawText rest).map fun (t, rest) => (.joined t, rest)
  | _ => none

/-- A value that starts with a letter: a word, a raw text, or what a name stands for. -/
def readLetters (scope : Scope) (inner : Option Inner) (s : List Char) :
    Option (Datum × List Char) :=
  let rest := s.dropWhile isNameChar
  match String.ofList (s.takeWhile isNameChar) with
  | "true" => some (.flag true, rest)
  | "false" => some (.flag false, rest)
  | "None" => some (.absent, rest)
  | "NaN" | "inf" => some (.other, rest)
  | "Some" => inner.bind fun inner => readPresent scope inner rest
  | _ =>
    match readName s, s with
    | some (name, rest), _ => readNamed scope inner name rest
    | none, 'r' :: rest => (readRawText rest).map fun (t, rest) => (.text t, rest)
    | none, _ => none

/-- A value that starts with a letter. Where marks of presence may be left out, a raw text may be
joined to its mark. -/
def readWord (scope : Scope) (inner : Option Inner) (s : List Char) :
    Option (Datum × List Char) :=
  match if scope.mayOmit then readJoined s else none with
  | some read => some read
  | none => readLetters scope inner s

/-- Whether a number may start with a character. -/
def startsNumber (c : Char) : Bool := c.isDigit || c = '+' || c = '-' || c = '.'

/-- A value; without readers of inner values, one that may hold none. -/
def readOuter (scope : Scope) (inner : Option Inner) (s : List Char) :
    Option (Datum × List Char) :=
  match skip s with
  | '"' :: rest => (readText rest).map fun (t, rest) => (.text t, rest)
  | '\'' :: rest => (readCharacter rest).map fun (_, rest) => (.other, rest)
  | '[' :: rest =>
    inner.bind fun inner =>
      (series.read scope.bound inner.entry ']' rest).map fun (items, rest) => (.list items, rest)
  | '\x7b' :: rest =>
    inner.bind fun inner =>
      (series.read scope.bound (readEntry inner.entry) '\x7d' rest).map fun (es, rest) =>
        (.map es, rest)
  | '(' :: ')' :: rest => some (.record none [], rest)
  | '(' :: rest => inner.bind fun inner => readGroup scope none inner.entry rest
  | c :: rest =>
    if startsNumber c then readNumber (c :: rest) else readWord scope inner (c :: rest)
  | [] => none

/-! ## Whole texts -/

/-- The deepest nesting of values that is read. -/
def maxNesting : Nat := 128

/-- A value with at most `levels` levels of values around others. -/
def readValue (scope : Scope) : (levels : Nat) → Reader Datum
  | 0, s => readOuter scope none s
  | 1, s => readOuter scope (some ⟨readValue scope 0, fun _ => none⟩) s
  | levels + 2, s =>
    readOuter scope (some ⟨readValue scope (levels + 1), readValue scope levels⟩) s

/-- The extension that lets the marks of presence be left out. -/
def omission : String := "implicit_some"

/-- The names of the extensions. -/
def extensions : List String := [omission, "unwrap_newtypes", "unwrap_variant_newtypes"]

/-- What stands behind a mark and the blanks that follow it. -/
def pass (mark : String) (s : List Char) : Option (List Char) :=
  if mark.toList.isPrefixOf s then some (skip (s.drop mark.length)) else none

/-- The extensions that an attribute enables, at least one of them. -/
def readAttribute (bound : Nat) (s : List Char) : Option (List String × List Char) := do
  let s ← ["#", "!", "[", "enable", "("].foldlM (fun s mark => pass mark s) s
  let (names, s) ← series.read bound (fun s => readName (skip s)) ')' s
  let s ← pass "]" (skip s)
  if names = [] then none else some (names, s)

/-- The extensions that the attributes at the front of a text enable. Each attribute takes
characters, so the length of the text bounds their number. -/
def readAttributes : (bound : Nat) → Reader (List String)
  | 0, s => some ([], s)
  | bound + 1, s => do
    if s.head? = some '#' then
      let (names, s) ← readAttribute bound s
      let (more, s) ← readAttributes bound s
      pure (names ++ more, s)
    else pure ([], s)

/-- What a text writes: a value, and whether marks of presence may be left out in it. -/
structure Document where
  mayOmit : Bool
  value : Datum

/-- The value written by a text, if it is one value and nothing else behind known extensions. -/
def parse? (text : String) : Option Document := do
  let (enabled, s) ← readAttributes text.length (skip text.toList)
  let mayOmit := decide (omission ∈ enabled)
  let (value, rest) ← readValue ⟨mayOmit, text.length⟩ maxNesting s
  if skip rest = [] ∧ enabled.all (· ∈ extensions) then some ⟨mayOmit, value⟩ else none

end RecipePlanner.Ron

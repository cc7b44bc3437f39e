import RecipePlanner.Toml.Scalar
import RecipePlanner.Toml.Table
import RecipePlanner.Toml.Text

/-!
# Reading TOML

A text is read line by line into statements, from which its record is built. Lists may run over
several lines and end in a comma; inline tables stand on one line, do not end in a comma, and follow
the same rules for keys as the text as a whole. Values nest at most `maxNesting` levels deep, and
the reader recurses on the levels left.
-/

namespace RecipePlanner.Toml

open Text (Reader)

/-- The deepest nesting of lists and inline tables that is read. -/
def maxNesting : Nat := 79

/-- Lists: on several lines, with a comma behind the last item or not. -/
def listSeries : Text.SeriesStyle := ⟨skipLines, true⟩

/-- Inline tables: on one line, with commas between entries only. -/
def tableSeries : Text.SeriesStyle := ⟨skipBlanks, false⟩

/-- A key, an equals sign and a value. -/
def readPair (value : Reader Datum) (s : List Char) : Option (Statement × List Char) := do
  let (key, rest) ← readKey s
  match rest with
  | '=' :: rest =>
    let (v, rest) ← value (skipBlanks rest)
    pure (.value key v, rest)
  | _ => none

/-- A value with at most `levels` levels of lists and inline tables, each with at most `bound`
entries. -/
def readValue (bound : Nat) : (levels : Nat) → Reader Datum
  | levels, s =>
    -- Without levels left, nothing inside another value is read.
    let value : Reader Datum := match levels with
      | 0 => fun _ => none
      | levels + 1 => readValue bound levels
    match s with
    | '"' :: _ | '\'' :: _ => (readText s).map fun (cs, rest) => (.text (String.ofList cs), rest)
    | '[' :: rest =>
      if levels = 0 then none
      else
        (listSeries.read bound (fun s => value (skipLines s)) ']' rest).map fun (items, rest) =>
          (.list items, rest)
    | '\x7b' :: rest =>
      if levels = 0 then none
      else do
        let (statements, rest) ← tableSeries.read bound (readPair value) '\x7d' rest
        pure (← build? statements, rest)
    | s => readScalar s

/-- A line without its blanks in front: a header, a value for a key, or nothing. -/
def readStatement (bound : Nat) (s : List Char) : Option (Option Statement × List Char) := do
  match s with
  | '[' :: '[' :: rest =>
    let (key, rest) ← readKey rest
    match rest with
    | ']' :: ']' :: rest => pure (some (.element key), rest)
    | _ => none
  | '[' :: rest =>
    let (key, rest) ← readKey rest
    match rest with
    | ']' :: rest => pure (some (.table key), rest)
    | _ => none
  | [] => pure (none, [])
  | c :: rest =>
    if c = '#' ∨ c = '\n' ∨ c = '\r' then pure (none, c :: rest)
    else
      let (statement, rest) ← readPair (readValue bound maxNesting) (c :: rest)
      pure (some statement, rest)

/-- The statements of a text, one per line at most, each with a comment behind it or not. A line
takes at least one character, so the length of the text bounds their number. -/
def readStatements : (bound : Nat) → List Char → Option (List Statement)
  | 0, _ => none
  | bound + 1, s => do
    let (statement, rest) ← readStatement bound (skipBlanks s)
    let statement := statement.toList
    match skipComment (skipBlanks rest) with
    | [] => pure statement
    | rest => do pure (statement ++ (← readStatements bound (← skipBreak? rest)))

/-- The text without the mark of byte order that may stand at its front. -/
def dropMark : List Char → List Char
  | '\uFEFF' :: rest => rest
  | s => s

/-- The record that a text writes. -/
def parse? (text : String) : Option Datum :=
  let s := dropMark text.toList
  (readStatements (s.length + 1) s).bind build?

end RecipePlanner.Toml

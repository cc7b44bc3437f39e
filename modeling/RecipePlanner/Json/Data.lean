import RecipePlanner.Datum
import RecipePlanner.Json.Outline

/-!
# Reading data of a known shape from JSON text

Values are read as far as they can be. One that cannot is an outline, which no field holds, so that
it only counts where a field is asked for: what stands under other names may be any outline.
-/

namespace RecipePlanner.Json

/-- An outline in place of a value that cannot be read. -/
def orOutline (s : List Char) : Option (Datum × List Char) → Option (Datum × List Char)
  | some read => some read
  | none => (passValue s).map fun rest => (.outline, rest)

/-- A value with at most `levels` levels of lists and objects, an outline beyond them. -/
def readDatum (bound : Nat) : (levels : Nat) → Text.Reader Datum
  | 0, s => orOutline s ((readScalar (skipBlanks s)).map fun (v, rest) => (.ofJson v, rest))
  | levels + 1, s =>
    orOutline s <| match skipBlanks s with
      | '[' :: rest =>
        (series.read bound (readDatum bound levels) ']' rest).map fun (items, rest) =>
          (.list items, rest)
      | '{' :: rest =>
        (series.read bound (readMember (readDatum bound levels)) '}' rest).map
          fun (fields, rest) => (.record none fields, rest)
      | s => (readScalar s).map fun (v, rest) => (.ofJson v, rest)

/-- The data written by a text, if it is one value and nothing else. -/
def parseData? (s : String) : Option Datum :=
  match readDatum s.length maxNesting s.toList with
  | some (v, rest) => if skipBlanks rest = [] then some v else none
  | none => none

end RecipePlanner.Json

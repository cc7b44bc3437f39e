/-!
# Series in a written text

Readers work on the characters that are left: a reader takes something off their front and returns
it with the rest. A series is what stands between an opening and a closing character: entries with
commas between them. Formats differ in what may be skipped around entries and in whether a comma may
stand behind the last one.
-/

namespace RecipePlanner.Text

/-- Takes something off the front of a text. -/
abbrev Reader (α : Type) := List Char → Option (α × List Char)

/-- How series are written. -/
structure SeriesStyle where
  /-- What is left behind the blanks at the front. -/
  skip : List Char → List Char
  /-- Whether a comma may stand behind the last entry. -/
  endsInComma : Bool

namespace SeriesStyle

variable {α : Type}

/-- One entry and those behind it, up to the closing character, at most `bound` of them. -/
def readEntries (style : SeriesStyle) (entry : Reader α) (close : Char) :
    (bound : Nat) → Reader (List α)
  | 0, _ => none
  | bound + 1, s => do
    let (x, rest) ← entry s
    match style.skip rest with
    | [] => none
    | c :: rest =>
      if c = close then pure ([x], rest)
      else if c ≠ ',' then none
      else if style.endsInComma ∧ (style.skip rest).head? = some close then
        pure ([x], (style.skip rest).tail)
      else
        let (xs, rest) ← readEntries style entry close bound rest
        pure (x :: xs, rest)

/-- The entries behind an opening character, possibly none. Each entry takes a character, so the
length of a text bounds the number of entries of every series in it. -/
def read (style : SeriesStyle) (bound : Nat) (entry : Reader α) (close : Char) (s : List Char) :
    Option (List α × List Char) :=
  match style.skip s with
  | [] => none
  | c :: rest =>
    if c = close then some ([], rest)
    else readEntries style entry close bound (c :: rest)

end SeriesStyle

end RecipePlanner.Text

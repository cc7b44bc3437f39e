import RecipePlanner.Text.Series

/-!
# Names of RON

The names of fields, types and extensions. A plain name holds letters, digits and underscores and
does not start with a digit; a raw name stands behind `r#` and may hold points and signs as well.
-/

namespace RecipePlanner.Ron

/-- Whether a plain name may go on with a character. -/
def isNameChar (c : Char) : Bool := c.isAlphanum || c = '_'

/-- Whether a plain name may start with a character. -/
def startsName (c : Char) : Bool := c.isAlpha || c = '_'

/-- Whether a raw name may hold a character. -/
def isRawNameChar (c : Char) : Bool := isNameChar c || c = '.' || c = '+' || c = '-'

/-- A plain name, behind which no character of a raw name may stand. -/
def readPlainName (s : List Char) : Option (List Char × List Char) :=
  if s.head?.any startsName ∧ ¬(s.dropWhile isNameChar).head?.any isRawNameChar then
    some (s.takeWhile isNameChar, s.dropWhile isNameChar)
  else none

/-- A name. An `r` in front of a quote, or of a number sign that no name follows, starts none. -/
def readName (s : List Char) : Option (String × List Char) :=
  let read := match s with
    | 'r' :: '"' :: _ => none
    | 'r' :: '#' :: rest =>
      if rest.head?.any isRawNameChar then
        some (rest.takeWhile isRawNameChar, rest.dropWhile isRawNameChar)
      else none
    | s => readPlainName s
  read.map fun (cs, rest) => (String.ofList cs, rest)

end RecipePlanner.Ron

import RecipePlanner.Text.Series

/-!
# Blanks and comments of RON

Blanks and comments may stand wherever one value, name or mark ends. A comment runs to the end of
its line, or between marks that may enclose further comments.
-/

namespace RecipePlanner.Ron

/-- Whether a character separates values. -/
def isBlank (c : Char) : Bool := c = ' ' || c = '\t' || c = '\n' || c = '\r'

/-- Where blanks and comments stand: outside, in a line comment, or inside `depth + 1` comments. -/
inductive Gap where
  | outside
  | line
  | block (depth : Nat)

/-- The text behind the blanks and comments at its front. Of a comment that is not closed its
opening stays, behind which no value is found. -/
def skipFrom : Gap → List Char → List Char
  | .outside, '/' :: '/' :: rest => skipFrom .line rest
  | .outside, '/' :: '*' :: rest => skipFrom (.block 0) rest
  | .outside, c :: rest => if isBlank c then skipFrom .outside rest else c :: rest
  | .line, c :: rest => if c = '\n' then skipFrom .outside rest else skipFrom .line rest
  | .block depth, '/' :: '*' :: rest => skipFrom (.block (depth + 1)) rest
  | .block 0, '*' :: '/' :: rest => skipFrom .outside rest
  | .block (depth + 1), '*' :: '/' :: rest => skipFrom (.block depth) rest
  | .block depth, _ :: rest => skipFrom (.block depth) rest
  | .outside, [] => []
  | .line, [] => []
  | .block _, [] => ['/', '*']

/-- The text behind the blanks and comments at its front. -/
def skip (s : List Char) : List Char := skipFrom .outside s

/-- Entries between commas, one of which may stand behind the last entry. -/
def series : Text.SeriesStyle := ⟨skip, true⟩

end RecipePlanner.Ron

import RecipePlanner.Double
import RecipePlanner.Text.Split
import RecipePlanner.Toml.Moment
import RecipePlanner.Word

/-!
# Numbers, truth values and moments of TOML

Whole numbers have 64 bits with a sign and may be written in four bases; a fraction above zero has
to be in the range of doubles. Underscores stand between digits only.
-/

namespace RecipePlanner.Toml

open Text (Reader)

/-! ## Numbers -/

/-- The number that digits with single underscores between them write. -/
def grouped? (base : Nat) (cs : List Char) : Option Nat :=
  if (Text.splitOn (· = '_') cs).any List.isEmpty then none
  else Text.numeral? base (cs.filter (· ≠ '_'))

/-- The number that digits write of which only the last may be a zero in front. -/
def plain? (cs : List Char) : Option Nat :=
  if cs.head? = some '0' ∧ cs.length > 1 then none else grouped? 10 cs

/-- A sign, whether it is a minus, and what stands behind it. -/
def cutSign : List Char → Bool × List Char
  | '-' :: cs => (true, cs)
  | '+' :: cs => (false, cs)
  | cs => (false, cs)

/-- A whole number. -/
def whole? (cs : List Char) : Option Int :=
  match cs with
  | '0' :: 'x' :: digits => ((grouped? 16 digits).filter (· ≤ Word.maxSigned64)).map Int.ofNat
  | '0' :: 'o' :: digits => ((grouped? 8 digits).filter (· ≤ Word.maxSigned64)).map Int.ofNat
  | '0' :: 'b' :: digits => ((grouped? 2 digits).filter (· ≤ Word.maxSigned64)).map Int.ofNat
  | cs =>
    match cutSign cs with
    | (true, digits) => ((plain? digits).filter (· ≤ Word.maxSigned64 + 1)).map fun n => -(n : Int)
    | (false, digits) => ((plain? digits).filter (· ≤ Word.maxSigned64)).map Int.ofNat

/-- An exponent, zero if nothing is written. -/
def exponent? : List Char → Option Int
  | [] => some 0
  | c :: cs =>
    if c = 'e' ∨ c = 'E' then
      match cutSign cs with
      | (true, digits) => (grouped? 10 digits).map fun n => -(n : Int)
      | (false, digits) => (grouped? 10 digits).map Int.ofNat
    else none

/-- Whether a character belongs to the digits of a number. -/
def isDigitChar (c : Char) : Bool := c.isDigit || c = '_'

/-- A number with places behind a point, with an exponent, or with both: its digits without a point,
and the exponent they have then. -/
def fraction? (cs : List Char) : Option (List Char × Int) :=
  let front := cs.takeWhile isDigitChar
  match cs.dropWhile isDigitChar with
  | '.' :: rest => do
    let places := rest.takeWhile isDigitChar
    let _ ← plain? front
    let _ ← grouped? 10 places
    let exponent ← exponent? (rest.dropWhile isDigitChar)
    let isNumeral := fun c => c ≠ '_'
    pure ((front ++ places).filter isNumeral, exponent - (places.filter isNumeral).length)
  | [] => none
  | rest => do
    let _ ← plain? front
    pure (front.filter (· ≠ '_'), ← exponent? rest)

/-- Whether digits with an exponent are in the range of doubles. -/
def isInRange (digits : List Char) (exponent : Int) : Bool :=
  match Text.numeral? 10 digits with
  | some n => (Double.ofDecimal? n digits.length exponent).isSome
  | none => false

/-- Whether a text writes a fraction, in range if it is above zero, or one of the values that are no
number. -/
def isFraction (cs : List Char) : Bool :=
  let (negative, bare) := cutSign cs
  match fraction? bare with
  | some (digits, exponent) => negative || isInRange digits exponent
  | none => bare = ['i', 'n', 'f'] || bare = ['n', 'a', 'n']

/-! ## Scalars -/

/-- The value of a text without quotes. -/
def scalar? (cs : List Char) : Option Datum :=
  if cs = ['t', 'r', 'u', 'e'] then some (.flag true)
  else if cs = ['f', 'a', 'l', 's', 'e'] then some (.flag false)
  else match whole? cs with
    | some (.ofNat n) => some (.count n)
    | some (.negSucc _) => some .other
    | none =>
      if isFraction cs then some .other
      else (moment? cs).map fun m => .moment (String.ofList m)

/-- Whether a character belongs to a value without quotes. -/
def isScalarChar (c : Char) : Bool :=
  c.isAlphanum || c = '_' || c = '+' || c = '-' || c = '.' || c = ':'

/-- A value without quotes. One blank may stand between a date and the time of day behind it. -/
def readScalar (s : List Char) : Option (Datum × List Char) :=
  let front := s.takeWhile isScalarChar
  let alone := (scalar? front).map fun v => (v, s.dropWhile isScalarChar)
  match s.dropWhile isScalarChar with
  | ' ' :: c :: rest =>
    if isDate front ∧ c.isDigit then
      (scalar? (front ++ 'T' :: (c :: rest).takeWhile isScalarChar)).map fun v =>
        (v, (c :: rest).dropWhile isScalarChar)
    else alone
  | _ => alone

end RecipePlanner.Toml

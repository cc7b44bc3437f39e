import RecipePlanner.Datum
import RecipePlanner.Ron.Name
import RecipePlanner.Text.Digits
import RecipePlanner.Word

/-!
# Numbers of RON

A whole number is written in base ten or, behind `0x`, `0o` or `0b`, in base sixteen, eight or two,
with underscores anywhere behind its first digit. It has 64 bits, with a sign only if one is
written. What is no whole number may be a fraction, which holds no underscores, or stand for a value
that is no number or beyond all numbers.
-/

namespace RecipePlanner.Ron

/-- Whether a character may belong to a fraction. -/
def isFractionChar (c : Char) : Bool :=
  c.isDigit || c = 'e' || c = 'E' || c = '.' || c = '+' || c = '-' || c = '_'

/-- Whether a character may belong to the digits of a whole number. -/
def isWholeChar (c : Char) : Bool := c = '_' || (Text.digit? 16 c).isSome

/-- A sign, if there is one, and what stands behind it. -/
def cutSign : List Char → Option Char × List Char
  | '+' :: cs => (some '+', cs)
  | '-' :: cs => (some '-', cs)
  | cs => (none, cs)

/-- The base of a whole number, and its digits with what stands behind them. -/
def cutBase : List Char → Nat × List Char
  | '0' :: 'x' :: cs => (16, cs)
  | '0' :: 'o' :: cs => (8, cs)
  | '0' :: 'b' :: cs => (2, cs)
  | cs => (10, cs)

/-- A whole number without its sign. -/
def readWhole (s : List Char) : Option (Nat × List Char) :=
  let (base, s) := cutBase s
  let digits := s.takeWhile isWholeChar
  if digits.head? = some '_' then none
  else
    (Text.numeral? base (digits.filter (· ≠ '_'))).map fun n => (n, s.dropWhile isWholeChar)

/-- Whether a text is an exponent or empty. -/
def isExponent : List Char → Bool
  | [] => true
  | c :: cs => (c = 'e' || c = 'E') && (Text.numeral? 10 (cutSign cs).2).isSome

/-- Whether a text is a fraction without its sign: digits, a point among them or at either end or
not at all, and possibly an exponent. -/
def isFraction (s : List Char) : Bool :=
  let front := s.takeWhile Char.isDigit
  match s.dropWhile Char.isDigit with
  | '.' :: rest =>
    !(front ++ rest.takeWhile Char.isDigit).isEmpty && isExponent (rest.dropWhile Char.isDigit)
  | rest => !front.isEmpty && isExponent rest

/-- The words that stand for no number and for one beyond all numbers. -/
def limitWords : List (List Char) := [['N', 'a', 'N'], ['i', 'n', 'f']]

/-- What stands behind a fraction or one of the words. -/
def passFraction (s : List Char) : Option (List Char) :=
  let bare := (cutSign s).2
  if bare.takeWhile isNameChar ∈ limitWords then some (bare.dropWhile isNameChar)
  else if isFraction (cutSign (s.takeWhile isFractionChar)).2 then some (s.dropWhile isFractionChar)
  else none

/-- The largest magnitude of a whole number behind a sign, or without one. -/
def maxMagnitude : Option Char → Nat
  | none => Word.max64
  | some '-' => Word.maxSigned64 + 1
  | some _ => Word.maxSigned64

/-- A number. Only a whole number without a sign is a count. It is a fraction from the start if the
characters of a fraction run further than those of a whole number, and if it fits no whole one. -/
def readNumber (s : List Char) : Option (Datum × List Char) :=
  let (sign, bare) := cutSign s
  let fraction := (passFraction s).map fun rest => (Datum.other, rest)
  if (bare.takeWhile isWholeChar).length < (bare.takeWhile isFractionChar).length then fraction
  else match readWhole bare with
    | some (n, rest) =>
      if n > maxMagnitude sign then fraction
      else if sign.isSome then some (.other, rest)
      else some (.count n, rest)
    | none => fraction

end RecipePlanner.Ron

import RecipePlanner.Json.Basic
import RecipePlanner.Json.Decimal
import RecipePlanner.Text.Digits
import RecipePlanner.Text.Series

/-!
# Reading JSON text

A reader takes a value off the front of a text and returns what is left. Nesting is bounded: a
value may hold lists and objects up to `maxNesting` levels deep, so the reader recurses on the
levels left and needs no other measure. Of a number with more digits than 64 bits hold, the
leading digits that fit are kept.
-/

namespace RecipePlanner.Json

/-- The deepest nesting of lists and objects that is read. -/
def maxNesting : Nat := 127

/-- The text behind the blanks that JSON allows. -/
def skipBlanks (s : List Char) : List Char :=
  s.dropWhile fun c => c = ' ' || c = '\n' || c = '\t' || c = '\r'

/-- The character that stands behind a backslash, if it is a single one. -/
def escaped? : Char → Option Char
  | '"' => some '"'
  | '\\' => some '\\'
  | '/' => some '/'
  | 'b' => some '\x08'
  | 'f' => some '\x0c'
  | 'n' => some '\n'
  | 'r' => some '\r'
  | 't' => some '\t'
  | _ => none

/-- The characters up to the closing quote. Codes above the first plane are written as two escapes,
neither of which stands alone. -/
def readText : List Char → Option (List Char × List Char)
  | [] => none
  | '"' :: rest => some ([], rest)
  | '\\' :: 'u' :: a :: b :: c :: d :: rest =>
    match Text.numeral? 16 [a, b, c, d] with
    | none => none
    | some high =>
      if 0xDC00 ≤ high ∧ high ≤ 0xDFFF then none
      else if 0xD800 ≤ high ∧ high ≤ 0xDBFF then
        match rest with
        | '\\' :: 'u' :: a :: b :: c :: d :: rest =>
          match Text.numeral? 16 [a, b, c, d] with
          | none => none
          | some low =>
            if 0xDC00 ≤ low ∧ low ≤ 0xDFFF then
              let code := 0x10000 + 0x400 * (high - 0xD800) + (low - 0xDC00)
              (readText rest).map fun (cs, left) => (Char.ofNat code :: cs, left)
            else none
        | _ => none
      else (readText rest).map fun (cs, left) => (Char.ofNat high :: cs, left)
  | '\\' :: c :: rest =>
    match escaped? c with
    | some c => (readText rest).map fun (cs, left) => (c :: cs, left)
    | none => none
  | c :: rest =>
    if c.toNat < 0x20 then none else (readText rest).map fun (cs, left) => (c :: cs, left)

/-- The digits at the front of a text. -/
def readDigits (s : List Char) : List Nat × List Char :=
  ((s.takeWhile Char.isDigit).map fun c => c.toNat - '0'.toNat, s.dropWhile Char.isDigit)

/-- A significand followed by the digits that still fit, and the number of those that do not. -/
def fitDigits (n : Nat) : List Nat → Nat × Nat
  | [] => (n, 0)
  | d :: ds => if 10 * n + d ≤ Word.max64 then fitDigits (10 * n + d) ds else (n, ds.length + 1)

/-- The exponent of a number, zero if none is written. -/
def readExponent : List Char → Option (Int × List Char)
  | c :: rest =>
    if c = 'e' ∨ c = 'E' then
      let (negative, rest) := match rest with
        | '-' :: rest => (true, rest)
        | '+' :: rest => (false, rest)
        | rest => (false, rest)
      match readDigits rest with
      | ([], _) => none
      | (digits, rest) =>
        let n : Nat := Text.ofDigits 10 digits
        some (if negative then -(n : Int) else n, rest)
    else some (0, c :: rest)
  | [] => some (0, [])

/-- A number that is not whole, if it is in range. -/
def real? (negative : Bool) (significand : Nat) (exponent : Int) : Option Number :=
  (double? significand exponent).map (.real negative)

/-- A number without its sign. Digits beyond 64 bits count as powers of ten before the point and
are dropped behind it. Without point and exponent it is whole if it fits 64 bits; zero below zero is
a double. -/
def readMagnitude (negative : Bool) (s : List Char) : Option (Number × List Char) :=
  let (digits, rest) := readDigits s
  if digits = [] ∨ (digits.head? = some 0 ∧ digits.length > 1) then none
  else
    let (n, dropped) := fitDigits 0 digits
    match rest with
    | '.' :: rest =>
      match readDigits rest with
      | ([], _) => none
      | (places, rest) => do
        let (m, lost) := fitDigits n places
        let (e, rest) ← readExponent rest
        let x ← real? negative m (dropped - (places.length - lost : Nat) + e)
        pure (x, rest)
    | 'e' :: _ | 'E' :: _ => do
      let (e, rest) ← readExponent rest
      let x ← real? negative n (dropped + e)
      pure (x, rest)
    | rest =>
      if dropped ≠ 0 ∨ (negative ∧ (n = 0 ∨ n > Word.maxSigned64 + 1)) then
        (real? negative n dropped).map fun x => (x, rest)
      else some (.whole (if negative then -(n : Int) else n), rest)

/-- A number. -/
def readNumber : List Char → Option (Number × List Char)
  | '-' :: rest => readMagnitude true rest
  | s => readMagnitude false s

/-- A value that holds no other values. -/
def readScalar : List Char → Option (Json × List Char)
  | 'n' :: 'u' :: 'l' :: 'l' :: rest => some (.null, rest)
  | 't' :: 'r' :: 'u' :: 'e' :: rest => some (.bool true, rest)
  | 'f' :: 'a' :: 'l' :: 's' :: 'e' :: rest => some (.bool false, rest)
  | '"' :: rest => (readText rest).map fun (cs, rest) => (.text (String.ofList cs), rest)
  | s => (readNumber s).map fun (n, rest) => (.number n, rest)

/-- Entries between commas, none of which stands behind the last entry. -/
def series : Text.SeriesStyle := ⟨skipBlanks, false⟩

/-- A name, a colon and a value. -/
def readMember {α : Type} (value : Text.Reader α) (s : List Char) :
    Option ((String × α) × List Char) := do
  match skipBlanks s with
  | '"' :: rest =>
    let (name, rest) ← readText rest
    match skipBlanks rest with
    | ':' :: rest =>
      let (v, rest) ← value rest
      pure ((String.ofList name, v), rest)
    | _ => none
  | _ => none

/-- A value with at most `levels` levels of lists and objects, each with at most `bound` entries. -/
def readValue (bound : Nat) : (levels : Nat) → List Char → Option (Json × List Char)
  | 0, s => readScalar (skipBlanks s)
  | levels + 1, s =>
    match skipBlanks s with
    | '[' :: rest =>
      (series.read bound (readValue bound levels) ']' rest).map fun (items, rest) =>
        (.list items, rest)
    | '{' :: rest =>
      (series.read bound (readMember (readValue bound levels)) '}' rest).map fun (members, rest) =>
        (.object members, rest)
    | s => readScalar s

/-- The value written by a text, if it is one value and nothing else. -/
def parse? (s : String) : Option Json :=
  match readValue s.length maxNesting s.toList with
  | some (v, rest) => if skipBlanks rest = [] then some v else none
  | none => none

end RecipePlanner.Json

import RecipePlanner.Datum
import RecipePlanner.Text.Digits
import RecipePlanner.Text.Series

/-!
# Moments of TOML

A moment is a date, a time of day, or both with an offset behind them, each of whose numbers is in
its range; it is kept in one spelling. A moment stands as a value, or as a text in a table under the
one key that marks the table as a moment (`withMoments?`).
-/

namespace RecipePlanner.Toml

open Text (Reader)

/-- The number that two digits write, in a range. -/
def pair? (least most : Nat) (a b : Char) : Option Nat :=
  (Text.numeral? 10 [a, b]).filter fun n => least ≤ n ∧ n ≤ most

/-- Whether a year has a leap day. -/
def isLeap (year : Nat) : Bool := year % 4 = 0 && (year % 100 ≠ 0 || year % 400 = 0)

/-- The number of days of a month. -/
def monthLength (year month : Nat) : Nat :=
  if month = 2 then if isLeap year then 29 else 28
  else if month ∈ [4, 6, 9, 11] then 30
  else 31

/-- Whether a text is a date. -/
def isDate (cs : List Char) : Bool :=
  match cs with
  | [a, b, c, d, '-', e, f, '-', g, h] =>
    match Text.numeral? 10 [a, b, c, d], pair? 1 12 e f with
    | some year, some month => (pair? 1 (monthLength year month) g h).isSome
    | _, _ => false
  | _ => false

/-- Nine places behind a second at most, without zeros at the end. -/
def places (digits : List Char) : List Char :=
  match ((digits.take 9).reverse.dropWhile (· = '0')).reverse with
  | [] => []
  | ds => '.' :: ds

/-- A time of day, and what stands behind it. -/
def readTime : Reader (List Char)
  | a :: b :: ':' :: c :: d :: ':' :: e :: f :: rest =>
    match pair? 0 23 a b, pair? 0 59 c d, pair? 0 60 e f with
    | some _, some _, some _ =>
      let time := [a, b, ':', c, d, ':', e, f]
      match rest with
      | '.' :: rest =>
        match rest.takeWhile Char.isDigit with
        | [] => none
        | digits => some (time ++ places digits, rest.dropWhile Char.isDigit)
      | rest => some (time, rest)
    | _, _, _ => none
  | _ => none

/-- The offset behind a time of day; nothing if none is written. No offset at all has no sign of its
own. -/
def offset? : List Char → Option (List Char)
  | [] => some []
  | ['Z'] => some ['Z']
  | ['z'] => some ['Z']
  | [sign, a, b, ':', c, d] =>
    match pair? 0 23 a b, pair? 0 59 c d with
    | some hours, some minutes =>
      if sign = '+' ∨ sign = '-' then
        some ((if hours = 0 ∧ minutes = 0 then '+' else sign) :: [a, b, ':', c, d])
      else none
    | _, _ => none
  | _ => none

/-- A moment in its one spelling, with `T` between date and time, where a blank may be written. -/
def moment? (cs : List Char) : Option (List Char) :=
  let date := cs.take 10
  if isDate date then
    match cs.drop 10 with
    | [] => some date
    | c :: rest =>
      if c ∈ ['T', 't', ' '] then do
        let (time, rest) ← readTime rest
        let offset ← offset? rest
        pure (date ++ 'T' :: time ++ offset)
      else none
  else match readTime cs with
    | some (time, []) => some time
    | _ => none

/-- The key that marks a table as a moment where it stands first. -/
def momentKey : String := "$__toml_private_datetime"

/-- The moment that a text under the key writes. -/
def momentOfText? : Datum → Option Datum
  | .text s => (moment? s.toList).map fun cs => .moment (String.ofList cs)
  | _ => none

mutual

/-- A value with moments for the tables that are marked as such; there is none if a marked table
holds no moment. What else stands in a marked table does not count. -/
def withMoments? : Datum → Option Datum
  | .list items => (allWithMoments? items).map .list
  | .record type fields => recordWithMoments? type fields
  | v => some v

/-- Values with moments for the tables that are marked as such. -/
def allWithMoments? : List Datum → Option (List Datum)
  | [] => some []
  | v :: vs => do pure ((← withMoments? v) :: (← allWithMoments? vs))

/-- A table, or the moment that it stands for. -/
def recordWithMoments? (type : Option String) : List (String × Datum) → Option Datum
  | [] => some (.record type [])
  | (name, v) :: fields =>
    if name = momentKey then momentOfText? v
    else do pure (.record type ((name, ← withMoments? v) :: (← fieldsWithMoments? fields)))

/-- The values of a table with moments for the tables that are marked as such. -/
def fieldsWithMoments? : List (String × Datum) → Option (List (String × Datum))
  | [] => some []
  | (name, v) :: fields => do pure ((name, ← withMoments? v) :: (← fieldsWithMoments? fields))

end

end RecipePlanner.Toml

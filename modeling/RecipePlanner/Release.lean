import RecipePlanner.Text.Split
import RecipePlanner.Word

/-!
# Release names and their order

A release name such as `1.21.4` or `24w14a` is cut at dots and hyphens. Parts that are both
numbers are compared as numbers and all others as texts; the first pair that differs decides. A
name with fewer parts comes first, and names whose parts all agree are ordered as texts, so two
names compare as equal exactly when they are the same text.

The order need not be transitive: `2` is before `10` as a number, `10` before `1a` and `1a` before
`2` as texts. `Release.sort` and `ReleaseTable` therefore say which pairs they compare.
-/

namespace RecipePlanner

/-- The name of a release. -/
structure Release where
  text : String
  deriving DecidableEq, Repr

namespace Release

/-- The value of a run of decimal digits. -/
def digitsValue (cs : List Char) : Nat := cs.foldl (fun n c => 10 * n + (c.toNat - '0'.toNat)) 0

/-- The number a part stands for: decimal digits with an optional plus sign in front, that
fits 64 bits. -/
def number? (part : List Char) : Option Nat :=
  let digits := match part with
    | '+' :: cs => cs
    | cs => cs
  if digits ≠ [] ∧ digits.all Char.isDigit ∧ digitsValue digits ≤ Word.max64 then
    some (digitsValue digits)
  else none

/-- The parts of a name between its dots and hyphens. -/
def parts (r : Release) : List (List Char) :=
  Text.splitOn (fun c => c = '.' || c = '-') r.text.toList

/-- Two parts in order: as numbers if both are numbers, else as texts. -/
def comparePart (a b : List Char) : Ordering :=
  match number? a, number? b with
  | some m, some n => Ord.compare m n
  | _, _ => Ord.compare (String.ofList a) (String.ofList b)

/-- Two lists of parts in order: the first difference decides, and a proper beginning of the other
list comes first. -/
def compareParts : List (List Char) → List (List Char) → Ordering
  | [], [] => .eq
  | [], _ :: _ => .lt
  | _ :: _, [] => .gt
  | a :: as, b :: bs => (comparePart a b).then (compareParts as bs)

/-- Two names in order: by parts, and by their texts if all parts agree. -/
def compare (a b : Release) : Ordering :=
  (compareParts a.parts b.parts).then (Ord.compare a.text b.text)

/-- The list, last name first, with `x` put behind every name that it is not before. -/
def insertLast (x : Release) : List Release → List Release
  | [] => [x]
  | y :: ys => if compare x y = .lt then y :: insertLast x ys else x :: y :: ys

/-- The names in ascending order. Each name in turn moves forward past its neighbours until it
meets one that it is not before, so equal names keep their order. -/
def sort (rs : List Release) : List Release :=
  (rs.foldl (fun sorted x => insertLast x sorted) []).reverse

end Release

end RecipePlanner

import RecipePlanner.Double

/-!
# The shortest decimal of a double

Of the decimals that lie nearer to a double than to any other one, those with the fewest digits, and
of them the one nearest to the double. A decimal halfway to the next double counts if the mantissa
is even. On each grid of decimals with one exponent it is enough to look at the two neighbours of
the double, and grids are tried from the coarsest on.
-/

namespace RecipePlanner

/-- A decimal: `digits * 10 ^ exponent`. -/
structure Decimal where
  digits : Nat
  exponent : Int
  deriving DecidableEq, Repr

namespace Double

/-- The number of digits in base ten. -/
def digitCount (n : Nat) : Nat := (Nat.toDigits 10 n).length

/-- An exponent of ten whose power is not below a double that is not zero. -/
def coarsest (x : Double) : Int :=
  let q := x.toRatio
  if q.divisor ≤ q.dividend then digitCount (q.dividend / q.divisor)
  else 1 - (digitCount (q.divisor / q.dividend) : Int)

/-- The decimal of the grid with one exponent that stands for a double, if there is one. Lengths are
counted in quarters of the step from the double to the next one. -/
def onGrid? (x : Double) (exponent : Int) : Option Decimal :=
  -- A step of the grid is to a quarter as `step` is to `quarter`.
  let ratio := Ratio.scale ⟨1, 1⟩ (x.exponent - 2)
  let step := ratio.divisor * Nat.pow 10 exponent.toNat
  let quarter := ratio.dividend * Nat.pow 10 (-exponent).toNat
  let place := 4 * x.mantissa * quarter
  -- Below a power of two the doubles are twice as dense.
  let down := if x.mantissa = 1 <<< (precision - 1) ∧ minExponent < x.exponent then 1 else 2
  let reaches := fun (distance room : Nat) =>
    distance < room || (distance = room && x.mantissa % 2 = 0)
  let left := place / step
  let leftAway := place % step
  let rightAway := step - leftAway
  match reaches leftAway (down * quarter), reaches rightAway (2 * quarter) with
  | true, true =>
    if leftAway < rightAway ∨ (leftAway = rightAway ∧ left % 2 = 0) then some ⟨left, exponent⟩
    else some ⟨left + 1, exponent⟩
  | true, false => some ⟨left, exponent⟩
  | false, true => some ⟨left + 1, exponent⟩
  | false, false => none

/-- The number of grids to look at: seventeen digits tell all doubles apart, and the coarsest grid
may be too coarse for one. -/
def gridCount : Nat := 19

/-- The shortest decimal that stands for a double. -/
def shortest (x : Double) : Decimal :=
  if x.mantissa = 0 then ⟨0, 0⟩
  else ((List.range gridCount).findSome? fun (i : Nat) => onGrid? x (coarsest x - i)).getD ⟨0, 0⟩

end Double

end RecipePlanner

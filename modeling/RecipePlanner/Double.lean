/-!
# Doubles

The finite numbers of 64 bits that are not below zero, as `mantissa * 2 ^ exponent`, and the
rounding of a ratio to the nearest of them, of two equally near ones to the one with an even
mantissa. A ratio at least half a step beyond the largest double has no nearest one.
-/

namespace RecipePlanner

/-- A finite double that is not below zero: `mantissa * 2 ^ exponent`. -/
structure Double where
  mantissa : Nat
  exponent : Int
  deriving DecidableEq, Repr

namespace Double

/-- The number of bits of a mantissa. -/
def precision : Nat := 53

/-- The least exponent. -/
def minExponent : Int := -1074

/-- The largest exponent. -/
def maxExponent : Int := 971

/-- Zero. -/
def zero : Double := ⟨0, minExponent⟩

/-- A quotient of whole numbers that is not worked out. -/
structure Ratio where
  dividend : Nat
  divisor : Nat

namespace Ratio

/-- The ratio times a power of two. -/
def scale (q : Ratio) : Int → Ratio
  | .ofNat k => ⟨q.dividend <<< k, q.divisor⟩
  | .negSucc k => ⟨q.dividend, q.divisor <<< (k + 1)⟩

/-- The nearest whole number, of two the even one. -/
def nearest (q : Ratio) : Nat :=
  let whole := q.dividend / q.divisor
  let twice := 2 * (q.dividend % q.divisor)
  if twice > q.divisor ∨ (twice = q.divisor ∧ whole % 2 = 1) then whole + 1 else whole

/-- The exponent of the largest power of two that is at most the ratio, which is not zero. -/
def log2 (q : Ratio) : Int :=
  let guess : Int := (q.dividend.log2 : Int) - q.divisor.log2
  -- The ratio lies between the powers of two with the exponents `guess - 1` and `guess + 1`.
  let scaled := q.scale (-guess)
  if scaled.dividend < scaled.divisor then guess - 1 else guess

end Ratio

/-- The double nearest to a ratio, if it is in range. -/
def nearest? (q : Ratio) : Option Double :=
  if q.dividend = 0 then some zero
  else
    let exponent := max (q.log2 - (precision - 1)) minExponent
    let mantissa := (q.scale (-exponent)).nearest
    -- Rounding up may take one bit more, of which the last is zero.
    let rounded : Double :=
      if mantissa = 1 <<< precision then ⟨1 <<< (precision - 1), exponent + 1⟩
      else ⟨mantissa, exponent⟩
    if rounded.exponent > maxExponent then none else some rounded

/-- The double nearest to a whole number, if it is in range. -/
def ofNat? (n : Nat) : Option Double := nearest? ⟨n, 1⟩

/-- The exact value. -/
def toRatio (x : Double) : Ratio := Ratio.scale ⟨x.mantissa, 1⟩ x.exponent

/-- The double nearest to a product, if it is in range. -/
def mul? (x y : Double) : Option Double :=
  nearest? (Ratio.scale ⟨x.mantissa * y.mantissa, 1⟩ (x.exponent + y.exponent))

/-- The double nearest to a quotient of doubles, if it is in range. -/
def div? (x y : Double) : Option Double :=
  nearest? (Ratio.scale ⟨x.mantissa, y.mantissa⟩ (x.exponent - y.exponent))

/-- The whole part. -/
def floor (x : Double) : Nat := x.toRatio.dividend / x.toRatio.divisor

/-- No double is as large as ten to this power. -/
def decimalLimit : Nat := 309

/-- The double nearest to `digits * 10 ^ exponent`, where `digits` has `count` digits, if it is in
range. -/
def ofDecimal? (digits count : Nat) : (exponent : Int) → Option Double
  | .ofNat k =>
    if digits = 0 then some zero
    else if k > decimalLimit then none
    else nearest? ⟨digits * Nat.pow 10 k, 1⟩
  | .negSucc k =>
    -- Digits that stand far enough behind the point are all below half the least double.
    if digits = 0 ∨ k > count + 2 * decimalLimit then some zero
    else nearest? ⟨digits, Nat.pow 10 (k + 1)⟩

end Double

end RecipePlanner

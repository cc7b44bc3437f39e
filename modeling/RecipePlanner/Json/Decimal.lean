import RecipePlanner.Double

/-!
# Doubles from written digits

A decimal is read in two steps, each of which rounds: its significand becomes a double, which is
then multiplied with a power of ten, itself a double, or divided by one. Far behind the point it
takes several divisions. The result may lie beside the double nearest to the decimal.
-/

namespace RecipePlanner.Json

/-- The exponent of the largest power of ten in the range of doubles. -/
def maxPower : Nat := 308

/-- The double nearest to a power of ten, if it is in range. -/
def power? (k : Nat) : Option Double := Double.ofNat? (Nat.pow 10 k)

/-- A double divided `steps` times by the largest power of ten, and then by `10 ^ last`. -/
def shrink? (last : Nat) : (steps : Nat) → Double → Option Double
  | 0, x => (power? last).bind x.div?
  | steps + 1, x =>
    if x.mantissa = 0 then some x else ((power? maxPower).bind x.div?).bind (shrink? last steps)

/-- The double that stands for `significand * 10 ^ exponent`, if it is in range. -/
def double? (significand : Nat) (exponent : Int) : Option Double := do
  let x ← Double.ofNat? significand
  match exponent with
  | .ofNat k =>
    if k ≤ maxPower then (power? k).bind x.mul?
    else if significand = 0 then some x
    else none
  | .negSucc k => shrink? (k % maxPower + 1) (k / maxPower) x

end RecipePlanner.Json

import RecipePlanner.Word

/-!
# Amounts

How many units of a material a recipe takes or gives. An amount is a 32-bit count, and sums stay
at the largest amount instead of passing it.
-/

namespace RecipePlanner

/-- A count of units that fits 32 bits. -/
structure Amount where
  count : Nat
  count_le : count ≤ Word.max32
  deriving DecidableEq, Repr

namespace Amount

/-- The largest amount that does not exceed `n`. -/
def clamp (n : Nat) : Amount := ⟨min n Word.max32, Nat.min_le_right _ _⟩

/-- One unit. -/
def one : Amount := ⟨1, by decide⟩

/-- The amount `n`, if it is one. -/
def ofNat? (n : Nat) : Option Amount := if h : n ≤ Word.max32 then some ⟨n, h⟩ else none

/-- The amount a recipe yields when it declares `n`: at least one unit, at most the largest
amount. -/
def ofDeclared (n : Int) : Amount := if n ≤ 0 then one else clamp n.toNat

/-- The sum of two amounts, held at the largest amount. -/
def add (a b : Amount) : Amount := clamp (a.count + b.count)

instance : Inhabited Amount := ⟨one⟩

theorem count_clamp (n : Nat) : (clamp n).count = min n Word.max32 := rfl

theorem count_add (a b : Amount) : (a.add b).count = min (a.count + b.count) Word.max32 := rfl

theorem clamp_count (a : Amount) : clamp a.count = a := by
  simp only [clamp, Nat.min_eq_left a.count_le]

/-- A sum that is held at the largest amount is held there when more is added. -/
theorem add_clamp (n : Nat) (a : Amount) : (clamp n).add a = clamp (n + a.count) := by
  simp only [add, clamp, mk.injEq]
  omega

/-- A declared amount is never zero. -/
theorem ofDeclared_pos (n : Int) : 0 < (ofDeclared n).count := by
  unfold ofDeclared
  split
  · decide
  · simp only [clamp, Word.max32]
    omega

end Amount

end RecipePlanner

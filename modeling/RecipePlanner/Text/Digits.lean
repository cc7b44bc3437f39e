/-!
# Numerals

Numbers written with the digits of a base up to sixteen, letters in either case, and characters
written by their code.
-/

namespace RecipePlanner.Text

/-- The value of a character as a digit of a base up to sixteen. -/
def digit? (base : Nat) (c : Char) : Option Nat :=
  let value :=
    if c.isDigit then some (c.toNat - '0'.toNat)
    else if 'a' ≤ c ∧ c ≤ 'f' then some (c.toNat - 'a'.toNat + 10)
    else if 'A' ≤ c ∧ c ≤ 'F' then some (c.toNat - 'A'.toNat + 10)
    else none
  value.filter (· < base)

/-- The number that digits write. -/
def ofDigits (base : Nat) (digits : List Nat) : Nat := digits.foldl (fun n d => base * n + d) 0

/-- The number that one or more characters write in a base. -/
def numeral? (base : Nat) (cs : List Char) : Option Nat :=
  if cs.isEmpty then none else (cs.mapM (digit? base)).map (ofDigits base)

/-- The character with a code, if it is one. -/
def ofCode? (n : Nat) : Option Char := if n.isValidChar then some (Char.ofNat n) else none

end RecipePlanner.Text

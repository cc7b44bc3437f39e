import RecipePlanner.Document.Field

/-!
# Combinations of alternatives

Of several lists of alternatives, all ways to take one from each. There may be at most
`maxCombinations` of them. Their number is the product of the lengths as long as every partial
product fits 64 bits; the first one that does not makes the number count as the largest there is.
-/

namespace RecipePlanner.Document

/-- The product of numbers, unless a partial product does not fit 64 bits. -/
def boundedProduct? (ns : List Nat) : Option Nat :=
  ns.foldlM (fun total n => if total * n ≤ Word.max64 then some (total * n) else none) 1

variable {α : Type}

/-- The number of ways to take one element of each list, the largest number of 64 bits if it
cannot be told. -/
def countPicks (slots : List (List α)) : Nat :=
  (boundedProduct? (slots.map List.length)).getD Word.max64

/-- The choices made so far, each of them once with every element of one more list behind it. -/
def extendAll (choices : List (List α)) (slot : List α) : List (List α) :=
  choices.flatMap fun choice => slot.map fun x => choice ++ [x]

/-- All ways to take one element of each list, if there are not too many: the one choice of nothing,
extended by one list after the other. -/
def combinations (slots : List (List α)) : Except Fault (List (List α)) :=
  let count := countPicks slots
  if count > maxCombinations then .error (.tooManyCombinations count)
  else .ok (slots.foldl extendAll [[]])

end RecipePlanner.Document

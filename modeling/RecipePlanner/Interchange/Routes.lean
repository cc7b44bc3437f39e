import RecipePlanner.Interchange.Recipes
import RecipePlanner.Route

/-!
# Expansions and routes as JSON

The form in which expansions and routes are written and in which routes are read. Reading checks the
shape of a route only: a value may hold an item below itself.
-/

namespace RecipePlanner

/-- A recipe and its key as a value. -/
def KeyedRecipe.toJson (k : KeyedRecipe) : Json :=
  .object [("key", .text k.key), ("source", k.recipe.toJson)]

/-- The word for the reason of an end. -/
def Stop.key : Stop → String
  | .base => "base"
  | .cycle => "cycle"
  | .depthLimit => "depth_limit"

/-- The reason of an end, null if there is none. -/
def Stop.toJson (s : Option Stop) : Json := (s.map fun s => Json.text s.key).getD .null

/-- A score as a value. -/
def Score.toJson (s : Score) : Json :=
  .object [("distinct_requirements", .ofNat s.needs), ("all_base", .bool s.allBase)]

namespace Expansion

mutual

/-- An expansion as a value. -/
def toJson : Expansion → Json
  | node m bs more stop =>
    .object [("item", m.toJson), ("branches", .list (branchesToJson bs)),
      ("more_available", .ofNat more), ("stop", Stop.toJson stop)]

/-- Branches as values. -/
def branchesToJson : List Branch → List Json
  | [] => []
  | .mk choice score ns :: bs =>
    .object [("key", .text choice.key), ("source", choice.recipe.toJson), ("score", score.toJson),
      ("requirements", .list (allToJson ns))] :: branchesToJson bs

/-- Expansions as values. -/
def allToJson : List Expansion → List Json
  | [] => []
  | e :: es => toJson e :: allToJson es

end

end Expansion

namespace Json

mutual

/-- The number of levels of a value. -/
def height : Json → Nat
  | .null | .bool _ | .number _ | .text _ => 1
  | .list items => 1 + heightOfAll items
  | .object members => 1 + heightOfMembers members

/-- The number of levels of the highest of some values. -/
def heightOfAll : List Json → Nat
  | [] => 0
  | v :: vs => max (height v) (heightOfAll vs)

/-- The number of levels of the highest of some members. -/
def heightOfMembers : List (String × Json) → Nat
  | [] => 0
  | (_, v) :: ms => max (height v) (heightOfMembers ms)

end

end Json

namespace Route

mutual

/-- A route as a value. -/
def toJson : Route → Json
  | node i c ps =>
    .object [("item", .text i), ("source", (c.map Json.text).getD .null),
      ("requirements", .list (allToJson ps))]

/-- Routes as values. -/
def allToJson : List Route → List Json
  | [] => []
  | p :: ps => toJson p :: allToJson ps

end

/-- A route with at most `levels` levels from its fields. The choice may be left out where fields
have names. -/
def ofJsonWithin? : (levels : Nat) → Json → Option Route
  | 0, _ => none
  | levels + 1, v =>
    match v, v.fields? ["item", "source", "requirements"] with
    | .list [_], _ => none
    | _, some [some item, choice, parts] => do
      let item ← item.text?
      let choice ← Json.optional? Json.text? choice
      let parts ← match parts with
        | none => some []
        | some parts => parts.listOf? (ofJsonWithin? levels)
      pure (node item choice parts)
    | _, _ => none

/-- A route from its fields. -/
def ofJson? (v : Json) : Option Route := ofJsonWithin? v.height v

end Route

end RecipePlanner

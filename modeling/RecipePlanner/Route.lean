import RecipePlanner.Expansion

/-!
# Routes

A route records how something is going to be made: an item, the key of the recipe chosen for it, if
one has been, and the routes for what is needed. No item stands below itself and no route is built
deeper than `maxDepth`: `withPart` drops a part that would break either rule.
-/

namespace RecipePlanner

/-- An item, the choice made for it and the parts below it. -/
inductive Route where
  | node (item : String) (choice : Option String) (parts : List Route)
  deriving Repr

namespace Route

/-- The greatest depth of a route. -/
def maxDepth : Nat := 64

/-- An item without choice and parts. -/
def ofItem (item : String) : Route := node item none []

/-- An item with a choice and no parts. -/
def chosen (item choice : String) : Route := node item (some choice) []

/-- The item at the root. -/
def item : Route → String
  | node i _ _ => i

/-- The choice at the root. -/
def choice : Route → Option String
  | node _ c _ => c

/-- The parts below the root. -/
def parts : Route → List Route
  | node _ _ ps => ps

mutual

/-- Whether two routes are the same. -/
def same : Route → Route → Bool
  | node i c ps, node j d qs => i = j && c = d && sameAll ps qs

/-- Whether two lists of routes are the same. -/
def sameAll : List Route → List Route → Bool
  | [], [] => true
  | p :: ps, q :: qs => same p q && sameAll ps qs
  | [], _ :: _ => false
  | _ :: _, [] => false

end

mutual

theorem same_iff (p q : Route) : same p q = true ↔ p = q := by
  cases p with
  | node i c ps =>
    cases q with
    | node j d qs => simp [same, sameAll_iff ps qs, and_assoc]

theorem sameAll_iff (ps qs : List Route) : sameAll ps qs = true ↔ ps = qs := by
  cases ps with
  | nil => cases qs <;> simp [sameAll]
  | cons p ps =>
    cases qs with
    | nil => simp [sameAll]
    | cons q qs => simp [sameAll, same_iff p q, sameAll_iff ps qs]

end

instance : DecidableEq Route := fun p q => decidable_of_iff _ (same_iff p q)

mutual

/-- The items, each node before what is below it. -/
def items : Route → List String
  | node i _ ps => i :: itemsOfAll ps

/-- The items of some routes. -/
def itemsOfAll : List Route → List String
  | [] => []
  | p :: ps => items p ++ itemsOfAll ps

end

mutual

/-- The number of levels; a single node has one. -/
def depth : Route → Nat
  | node _ _ ps => 1 + depthOfAll ps

/-- The number of levels of the deepest of some routes. -/
def depthOfAll : List Route → Nat
  | [] => 0
  | p :: ps => max (depth p) (depthOfAll ps)

end

mutual

/-- The first node for an item, each node before what is below it. -/
def find? (wanted : String) : Route → Option Route
  | node i c ps => if i = wanted then some (node i c ps) else findIn? wanted ps

/-- The first node for an item among some routes. -/
def findIn? (wanted : String) : List Route → Option Route
  | [] => none
  | p :: ps =>
    match find? wanted p with
    | some r => some r
    | none => findIn? wanted ps

end

/-- Whether an item occurs. -/
def contains (r : Route) (item : String) : Bool := (r.find? item).isSome

mutual

/-- The route with the first node for an item changed by `f`, if the item occurs. -/
def updateFirst? (f : Route → Route) (wanted : String) : Route → Option Route
  | node i c ps =>
    if i = wanted then some (f (node i c ps))
    else (updateIn? f wanted ps).map fun ps => node i c ps

/-- Some routes with the first node for an item changed by `f`, if the item occurs. -/
def updateIn? (f : Route → Route) (wanted : String) : List Route → Option (List Route)
  | [] => none
  | p :: ps =>
    match updateFirst? f wanted p with
    | some p => some (p :: ps)
    | none => (updateIn? f wanted ps).map fun ps => p :: ps

end

/-- A node with another choice and the same parts. -/
def withChoice (choice : String) : Route → Route
  | node i _ ps => node i (some choice) ps

/-- A node without choice and parts. -/
def cleared : Route → Route
  | node i _ _ => ofItem i

/-- A node with one more part behind the others. -/
def addPart : Route → Route → Route
  | node i c ps, part => node i c (ps ++ [part])

/-- The route with one more part, unless the item at the root occurs in it or the route would become
too deep. -/
def withPart (r part : Route) : Route :=
  if r.item ∈ part.items ∨ part.depth ≥ maxDepth then r else r.addPart part

/-- The route with a choice made for an item: at the first node for it, which keeps its parts, else
at a new part of the root. -/
def select (item choice : String) (r : Route) : Route :=
  (r.updateFirst? (withChoice choice) item).getD (r.addPart (chosen item choice))

/-- The route with the first node for an item cleared, if the item occurs. -/
def reset? (item : String) (r : Route) : Option Route := r.updateFirst? cleared item

/-- A choice made in a route that may not have been started. -/
def selectIn (r : Option Route) (item choice : String) : Route :=
  match r with
  | some r => r.select item choice
  | none => chosen item choice

mutual

/-- The number of choices made. -/
def decisions : Route → Nat
  | node _ c ps => (if c.isSome then 1 else 0) + decisionsOfAll ps

/-- The number of choices made in some routes. -/
def decisionsOfAll : List Route → Nat
  | [] => 0
  | p :: ps => decisions p + decisionsOfAll ps

end

mutual

/-- Whether every node has a choice. -/
def isComplete : Route → Bool
  | node _ c ps => c.isSome && areComplete ps

/-- Whether every node of some routes has a choice. -/
def areComplete : List Route → Bool
  | [] => true
  | p :: ps => isComplete p && areComplete ps

end

mutual

/-- Whether every choice that an expansion calls for has been made: what nothing produces needs
none, nor does anything below it. -/
def isCompleteFor (e : Expansion) : Route → Bool
  | node i c ps =>
    ((e.findResolved? i).map Expansion.isBase).getD false || (c.isSome && areCompleteFor e ps)

/-- Whether every choice that an expansion calls for has been made in some routes. -/
def areCompleteFor (e : Expansion) : List Route → Bool
  | [] => true
  | p :: ps => isCompleteFor e p && areCompleteFor e ps

end

/-- A sorted list of texts with one more, unless it is among them. -/
def insertId (x : String) : List String → List String
  | [] => [x]
  | y :: ys =>
    match compare x y with
    | .lt => x :: y :: ys
    | .eq => y :: ys
    | .gt => y :: insertId x ys

/-- The items that occur, in order and each once. -/
def itemIds (r : Route) : List String := r.items.foldr insertId []

end Route

end RecipePlanner

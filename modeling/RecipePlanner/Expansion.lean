import RecipePlanner.Producers

/-!
# Expansions

The expansion of a material shows all ways to make it: per recipe a branch, and under a branch the
expansions of what the recipe needs. An expansion ends at a material that nothing produces, at one
that occurs higher up in the same lineage, and where the depth is used up. The better branches come
first, and only as many as the limits allow are built; the others are counted.
-/

namespace RecipePlanner

/-- Why an expansion has no branches. -/
inductive Stop where
  /-- Nothing produces the material. -/
  | base
  /-- The material occurs higher up. -/
  | cycle
  /-- The depth is used up. -/
  | depthLimit
  deriving DecidableEq, Repr

/-- What branches are ranked by. -/
structure Score where
  needs : Nat
  allBase : Bool
  deriving DecidableEq, Repr

/-- How far an expansion may go: levels below the root and branches per node. -/
structure Limits where
  depth : Nat
  width : Nat
  deriving DecidableEq, Repr

/-- Four levels with five branches each. -/
def Limits.default : Limits := ⟨4, 5⟩

mutual

/-- All ways to make a material: branches, the number of ways not built, and if there are none
of either the reason. -/
inductive Expansion where
  | node (material : Material) (branches : List Branch) (more : Nat) (stop : Option Stop)

/-- One way to make something: a recipe with its key and score, and what it needs. -/
inductive Branch where
  | mk (choice : KeyedRecipe) (score : Score) (needs : List Expansion)

end

namespace Score

/-- Whether a branch with score `a` may stand before one with score `b`: it needs fewer materials,
or as many and is not behind in needing only what nothing produces. -/
def before (a b : Score) : Bool :=
  a.needs < b.needs || (a.needs == b.needs && (a.allBase || !b.allBase))

end Score

namespace Branch

/-- The key that chooses the branch. -/
def key : Branch → String
  | mk choice _ _ => choice.key

/-- The recipe of the branch. -/
def recipe : Branch → Recipe
  | mk choice _ _ => choice.recipe

/-- The score of the branch. -/
def score : Branch → Score
  | mk _ score _ => score

/-- The expansions of what the recipe needs. -/
def needs : Branch → List Expansion
  | mk _ _ needs => needs

end Branch

namespace Expansion

/-- The material at the root. -/
def material : Expansion → Material
  | node m _ _ _ => m

/-- The branches at the root, best first. -/
def branches : Expansion → List Branch
  | node _ bs _ _ => bs

/-- The number of ways at the root that were not built. -/
def more : Expansion → Nat
  | node _ _ n _ => n

/-- Why the root has no branches. -/
def stop : Expansion → Option Stop
  | node _ _ _ s => s

/-- An expansion that ends at once. -/
def terminal (m : Material) (s : Stop) : Expansion := node m [] 0 (some s)

/-- Whether no way is listed or counted. -/
def isTerminal (e : Expansion) : Bool := e.branches.isEmpty && e.more == 0

/-- Whether nothing produces the material. -/
def isBase (e : Expansion) : Bool := e.stop == some .base

/-- The branch with this key. -/
def branch? (e : Expansion) (key : String) : Option Branch := e.branches.find? (·.key = key)

mutual

/-- The number of nodes. -/
def size : Expansion → Nat
  | node _ bs _ _ => 1 + sizeOfBranches bs

/-- The number of nodes below some branches. -/
def sizeOfBranches : List Branch → Nat
  | [] => 0
  | .mk _ _ ns :: bs => sizeOfAll ns + sizeOfBranches bs

/-- The number of nodes of some expansions. -/
def sizeOfAll : List Expansion → Nat
  | [] => 0
  | e :: es => size e + sizeOfAll es

end

mutual

/-- The first node that satisfies `wanted`, each node before what is below it. -/
def findWhere? (wanted : Expansion → Bool) : Expansion → Option Expansion
  | node m bs more stop =>
    if wanted (node m bs more stop) then some (node m bs more stop)
    else findInBranches? wanted bs

/-- The first node below some branches that satisfies `wanted`. -/
def findInBranches? (wanted : Expansion → Bool) : List Branch → Option Expansion
  | [] => none
  | .mk _ _ ns :: bs =>
    match findInAll? wanted ns with
    | some e => some e
    | none => findInBranches? wanted bs

/-- The first node of some expansions that satisfies `wanted`. -/
def findInAll? (wanted : Expansion → Bool) : List Expansion → Option Expansion
  | [] => none
  | e :: es =>
    match findWhere? wanted e with
    | some e => some e
    | none => findInAll? wanted es

end

/-- The first node for an identifier. -/
def find? (id : String) (e : Expansion) : Option Expansion :=
  findWhere? (fun e => e.material.id = id) e

/-- The first node for an identifier that was expanded or needs no expansion. -/
def findResolved? (id : String) (e : Expansion) : Option Expansion :=
  findWhere? (fun e => e.material.id = id && (e.stop == none || e.stop == some .base)) e

/-- An alternative with its score. -/
abbrev Alternative := Score × KeyedRecipe

/-- The alternatives with one more, before the first that it may stand before. -/
def place (a : Alternative) : List Alternative → List Alternative
  | [] => [a]
  | b :: bs => if a.1.before b.1 then a :: b :: bs else b :: place a bs

/-- The alternatives, best first; those with equal scores keep their order. -/
def rank (as : List Alternative) : List Alternative := as.foldr place []

/-- The score of a recipe. -/
def scoreOf (p : Producers) (r : Recipe) : Score :=
  ⟨r.distinctNeeds.length, r.distinctNeeds.all p.isBase⟩

/-- The alternatives for a material, best first. -/
def alternatives (p : Producers) (m : Material) : List Alternative :=
  rank ((p.keyed m).map fun k => (scoreOf p k.recipe, k))

/-- The node for a material, given the identifiers above it and how the materials that a recipe
needs are expanded under the lineage that includes it. -/
def nodeWith (p : Producers) (width : Nat) (lineage : List String) (m : Material)
    (expand : List String → Material → Expansion) : Expansion :=
  if m.id ∈ lineage then terminal m .cycle
  else match alternatives p m with
    | [] => terminal m .base
    | a :: as =>
      -- Ways beyond the width are counted, never built.
      let build := fun (score, choice) =>
        Branch.mk choice score (choice.recipe.distinctNeeds.map (expand (m.id :: lineage)))
      node m (((a :: as).take width).map build) ((a :: as).length - width) none

/-- The node for a material where the depth is used up. -/
def cutOff (p : Producers) (lineage : List String) (m : Material) : Expansion :=
  if m.id ∈ lineage then terminal m .cycle
  else if p.isBase m then terminal m .base
  else terminal m .depthLimit

/-- The expansion of a material with `depth` levels below it. -/
def grow (p : Producers) (width : Nat) :
    (depth : Nat) → (lineage : List String) → Material → Expansion
  | 0, lineage, m => nodeWith p width lineage m (cutOff p)
  | depth + 1, lineage, m => nodeWith p width lineage m (grow p width depth)

/-- The expansion of a material. -/
def ofMaterial (p : Producers) (m : Material) (limits : Limits) : Expansion :=
  grow p limits.width limits.depth [] m

/-- The expansion of the best known form of an identifier. -/
def ofId (p : Producers) (raw : String) (limits : Limits) : Expansion :=
  ofMaterial p (p.lookup raw) limits

end Expansion

end RecipePlanner

import RecipePlanner.BranchKey
import RecipePlanner.Keyed

/-!
# Who produces what

The productive recipes of a collection with two tables: for each item the positions of the recipes
that yield it, and for each identifier the best form in which it was met. The form with members
filled in is better than the bare tag; otherwise the first form met stays. A tag is produced by
whatever produces one of its members.

The tables are filled by adding the productive recipes one by one, so what is said of them is shown
for the addition of one such recipe (`ofList_induction`).
-/

namespace RecipePlanner

/-- Productive recipes with the tables by which they are found. -/
structure Producers where
  recipes : Array Recipe
  byItem : List (String × List Nat)
  known : List (String × Material)
  deriving Repr

/-- A recipe with the key that chooses it among the alternatives for one material. -/
structure KeyedRecipe where
  key : String
  recipe : Recipe
  deriving DecidableEq, Repr

namespace Producers

/-- No recipes. -/
def empty : Producers := ⟨#[], [], []⟩

/-- The better of a form met earlier and a new one: a tag without members gives way to anything that
stands for items. -/
def better (earlier new : Material) : Material :=
  match earlier with
  | .tag t => if t.members.isEmpty ∧ ¬ new.itemIds.isEmpty then new else earlier
  | .item _ => earlier

/-- The forms known after meeting a material. -/
def remember (known : List (String × Material)) (m : Material) : List (String × Material) :=
  Keyed.alter m.id (fun earlier => (earlier.map (better · m)).getD m) known

/-- The positions of an item's recipes with one more at the end, unless it is the last already. -/
def addPosition (position : Nat) (positions : List Nat) : List Nat :=
  if positions.getLast? = some position then positions else positions ++ [position]

/-- The table of positions after the recipe at `position` yields a material. A tag is nothing that
could be yielded. -/
def note (position : Nat) (byItem : List (String × List Nat)) (m : Material) :
    List (String × List Nat) :=
  if m.isTag then byItem
  else Keyed.alter m.id (fun earlier => addPosition position (earlier.getD [])) byItem

/-- Adds a recipe if it is productive. -/
def insert (p : Producers) (r : Recipe) : Producers :=
  if r.isProductive then
    -- The position of the new recipe is the number of those before it.
    { recipes := p.recipes.push r
      known := ((r.needs ++ r.yields).map (·.material)).foldl remember p.known
      byItem := (r.yields.map (·.material)).foldl (note p.recipes.size) p.byItem }
  else p

/-- The producers among some recipes. -/
def ofList (rs : List Recipe) : Producers := rs.foldl insert empty

/-- How many recipes there are. -/
def size (p : Producers) : Nat := p.recipes.size

/-- How many items have a recipe. -/
def itemCount (p : Producers) : Nat := p.byItem.length

/-- The best form known for an identifier, else the form its text has. -/
def lookup (p : Producers) (raw : String) : Material :=
  let id := Text.trim raw
  (p.known.lookup id).getD (Material.parse id)

/-- The positions of the recipes that yield an item. -/
def positionsOf (p : Producers) (id : String) : List Nat := (p.byItem.lookup id).getD []

/-- The items a material stands for: a tag without members stands for those of its best known
form. -/
def members (p : Producers) : Material → List String
  | .item i => [i.id]
  | .tag t => if t.members.isEmpty then (p.lookup t.id).itemIds else t.members.map (·.id)

/-- The positions of the recipes for a material. Those for a tag are gathered from its members in
turn, each position once. -/
def positions (p : Producers) : Material → List Nat
  | .item i => p.positionsOf i.id
  | .tag t => firstSeen id ((p.members (.tag t)).flatMap p.positionsOf)

/-- The recipes for a material. -/
def producing (p : Producers) (m : Material) : List Recipe :=
  (p.positions m).filterMap fun i => p.recipes[i]?

/-- The recipes for a material with the keys that choose them. -/
def keyed (p : Producers) (m : Material) : List KeyedRecipe :=
  let rs := p.producing m
  List.zipWith KeyedRecipe.mk (BranchKey.assign rs) rs

/-- Whether no recipe yields the material. -/
def isBase (p : Producers) (m : Material) : Bool := (p.positions m).isEmpty

theorem insert_of_productive {r : Recipe} (h : r.isProductive = true) (p : Producers) :
    p.insert r =
      { recipes := p.recipes.push r
        known := ((r.needs ++ r.yields).map (·.material)).foldl remember p.known
        byItem := (r.yields.map (·.material)).foldl (note p.recipes.size) p.byItem } :=
  if_pos h

theorem insert_of_not_productive {r : Recipe} (h : ¬ r.isProductive = true) (p : Producers) :
    p.insert r = p :=
  if_neg h

section Induction

variable {P : List Recipe → Producers → Prop}
  (hinsert : ∀ rs p r, r.isProductive = true → P rs p → P (rs ++ [r]) (p.insert r))

include hinsert

theorem foldl_insert_induction (rs : List Recipe) {before : List Recipe} {p : Producers}
    (hp : P before p) : P (before ++ rs.filter (·.isProductive)) (rs.foldl insert p) := by
  induction rs generalizing before p with
  | nil =>
    rw [List.filter_nil, List.append_nil]
    exact hp
  | cons r rs ih =>
    rw [List.foldl_cons]
    by_cases h : r.isProductive = true
    · rw [List.filter_cons_of_pos h, List.append_cons]
      exact ih (hinsert before p r h hp)
    · rw [List.filter_cons_of_neg h, insert_of_not_productive h]
      exact ih hp

/-- What holds of no recipes and is kept by adding a productive one holds of the producers among
some recipes, together with the productive ones of these. -/
theorem ofList_induction (hempty : P [] empty) (rs : List Recipe) :
    P (rs.filter (·.isProductive)) (ofList rs) :=
  foldl_insert_induction hinsert rs hempty

end Induction

end Producers

end RecipePlanner

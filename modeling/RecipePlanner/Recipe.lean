import RecipePlanner.Amount
import RecipePlanner.Files.Path
import RecipePlanner.FirstSeen
import RecipePlanner.Material

/-!
# Recipes

A recipe is one way to turn materials into others: the method, the document it came from, what it
needs and what it yields. Two methods mark documents that describe no way to make anything:
`ignored` for cosmetic ones and `unknown` for those that could not be read.
-/

namespace RecipePlanner

/-- How a recipe is carried out, or why a document gave none. -/
inductive Method where
  | shaped
  | shapeless
  | smelting
  | blasting
  | smoking
  | campfire
  | stonecutting
  | smithing
  | transmute
  | ignored
  | unknown
  deriving DecidableEq, Repr, Inhabited

namespace Method

/-- All methods. -/
def all : List Method :=
  [shaped, shapeless, smelting, blasting, smoking, campfire, stonecutting, smithing, transmute,
    ignored, unknown]

/-- The word that stands for a method in data. -/
def key : Method → String
  | shaped => "crafting_shaped"
  | shapeless => "crafting_shapeless"
  | smelting => "smelting"
  | blasting => "blasting"
  | smoking => "smoking"
  | campfire => "campfire_cooking"
  | stonecutting => "stonecutting"
  | smithing => "smithing_transform"
  | transmute => "crafting_transmute"
  | ignored => "ignored"
  | unknown => "unknown"

/-- The method with this key. -/
def ofKey? (key : String) : Option Method := all.find? fun m => m.key = key

/-- Whether the method only marks a document that yields nothing. -/
def isMarker : Method → Bool
  | ignored | unknown => true
  | _ => false

/-- Reading a key gives the method it stands for. -/
theorem ofKey?_key (m : Method) : ofKey? m.key = some m := by cases m <;> decide

theorem key_ne_empty (m : Method) : m.key ≠ "" := by cases m <;> decide

end Method

/-- An amount of one material. -/
structure Stack where
  material : Material
  amount : Amount
  deriving DecidableEq, Repr, Inhabited

/-- The identifier of the material. -/
def Stack.id (s : Stack) : String := s.material.id

/-- One way to make something. -/
structure Recipe where
  method : Method
  filename : String
  needs : List Stack
  yields : List Stack
  deriving DecidableEq, Repr, Inhabited

namespace Recipe

/-- The mark left by a document that could not be read. -/
def unreadable (filename : String) : Recipe := ⟨.unknown, filename, [], []⟩

/-- The mark left by a document that describes no production. -/
def cosmetic (filename : String) : Recipe := ⟨.ignored, filename, [], []⟩

/-- Whether the recipe only marks a document that yields nothing. -/
def isMarker (r : Recipe) : Bool := r.method.isMarker

/-- Whether the recipe makes something. -/
def isProductive (r : Recipe) : Bool := !r.isMarker && !r.yields.isEmpty

/-- Whether the recipe yields the material with this identifier. -/
def yieldsId (r : Recipe) (id : String) : Bool := r.yields.any (·.id = id)

/-- The materials needed, each once, in the order of their first mention. -/
def distinctNeeds (r : Recipe) : List Material :=
  firstSeen Material.id (r.needs.map (·.material))

/-- A material that is needed is that of a stack. -/
theorem exists_stack_of_mem_distinctNeeds {r : Recipe} {m : Material} (h : m ∈ r.distinctNeeds) :
    ∃ s ∈ r.needs, s.id = m.id := by
  have hid : m.id ∈ r.distinctNeeds.map Material.id := List.mem_map_of_mem h
  rw [distinctNeeds, mem_map_firstSeen, List.map_map] at hid
  exact List.mem_map.1 hid

/-- The number of units needed in all. -/
def neededUnits (r : Recipe) : Nat := r.needs.foldr (fun s n => s.amount.count + n) 0

/-- The name of the document without folders and extension. -/
def fileStem (r : Recipe) : String := (Files.Path.stem? r.filename).getD r.filename

/-- The stacks with one more: a stack of the same material takes the amount up, else the new one
goes to the end. -/
def mergeStack (held : List Stack) (s : Stack) : List Stack :=
  match held with
  | [] => [s]
  | t :: ts =>
    if t.id = s.id then { t with amount := t.amount.add s.amount } :: ts
    else t :: mergeStack ts s

/-- One stack per material, in the order of first mention, with the amounts added up. -/
def mergeStacks (given : List Stack) : List Stack := given.foldl mergeStack []

/-- The recipe with one stack per needed material. -/
def consolidate (r : Recipe) : Recipe := { r with needs := mergeStacks r.needs }

/-- The recipe with every material replaced. -/
def mapMaterials (f : Material → Material) (r : Recipe) : Recipe :=
  { r with
    needs := r.needs.map fun s => { s with material := f s.material }
    yields := r.yields.map fun s => { s with material := f s.material } }

end Recipe

end RecipePlanner

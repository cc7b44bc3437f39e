import RecipePlanner.Recipe

/-!
# Two sample collections of recipes

`wood` leads from logs over planks and sticks to torches and uses a tag with six members; `iron`
turns ingots into blocks and back, so that each is needed for the other.
-/

namespace RecipePlanner.Samples

/-- A stack of the material with this identifier. -/
def stack (id : String) (n : Nat) : Stack := ⟨Material.parse id, Amount.clamp n⟩

/-- A recipe with one product. -/
def recipe (method : Method) (filename : String) (needs : List (String × Nat))
    (product : String) (n : Nat) : Recipe :=
  ⟨method, filename, needs.map fun (id, k) => stack id k, [stack product n]⟩

/-- The kinds of wood. -/
def woods : List String := ["oak", "spruce", "birch", "jungle", "acacia", "dark_oak"]

/-- The planks of one kind of wood. -/
def planks (wood : String) : String := "minecraft:" ++ wood ++ "_planks"

/-- The tag of all planks with its members. -/
def allPlanks : Material :=
  let tag := Tag.ofId (Naming.tagName "minecraft:planks")
  .tag { tag with members := woods.map fun w => Item.ofId (planks w) }

/-- Logs to planks to sticks, and two ways to a torch. -/
def wood : List Recipe :=
  (woods.map fun w =>
    recipe .shapeless (w ++ "_planks.json") [("minecraft:" ++ w ++ "_log", 1)] (planks w) 4) ++
  [⟨.shaped, "stick.json", [⟨allPlanks, Amount.clamp 2⟩], [stack "minecraft:stick" 4]⟩,
    recipe .shaped "torch.json" [("minecraft:coal", 1), ("minecraft:stick", 1)]
      "minecraft:torch" 4,
    recipe .shaped "torch_charcoal.json" [("minecraft:charcoal", 1), ("minecraft:stick", 1)]
      "minecraft:torch" 4,
    recipe .smelting "charcoal.json" [("minecraft:oak_log", 1)] "minecraft:charcoal" 1]

/-- Ingots to blocks and back, a way from ore, and a tool. -/
def iron : List Recipe :=
  [recipe .shaped "iron_block.json" [("minecraft:iron_ingot", 9)] "minecraft:iron_block" 1,
    recipe .shapeless "iron_ingot_from_iron_block.json" [("minecraft:iron_block", 1)]
      "minecraft:iron_ingot" 9,
    recipe .smelting "iron_ingot_from_smelting_raw_iron.json" [("minecraft:raw_iron", 1)]
      "minecraft:iron_ingot" 1,
    recipe .shaped "iron_pickaxe.json" [("minecraft:iron_ingot", 3), ("minecraft:stick", 2)]
      "minecraft:iron_pickaxe" 1]

end RecipePlanner.Samples

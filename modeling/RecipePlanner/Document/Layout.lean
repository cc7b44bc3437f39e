import RecipePlanner.Recipe

/-!
# Layouts of recipe documents

The declared type of a document says where it keeps its ingredients. Types of the default namespace
may leave it out; types of any other namespace are not recognized. Types that only change how
something looks have the cosmetic layout.
-/

namespace RecipePlanner.Document

/-- Where a document keeps its ingredients. -/
inductive Layout where
  /-- A pattern of symbols and a key that explains them. -/
  | shaped
  /-- A list of ingredients in no order. -/
  | shapeless
  /-- One ingredient, worked on by the given method. -/
  | single (method : Method)
  /-- A base and an addition, in newer documents a template too. -/
  | smithing
  /-- An input and the material that changes it. -/
  | transmute
  /-- Nothing is produced. -/
  | cosmetic
  /-- The type means nothing here. -/
  | unrecognized
  deriving DecidableEq, Repr

namespace Layout

/-- The layout for the bare name of a type. -/
def ofName (name : String) : Layout :=
  if Text.hasInfix "special".toList name.toList ∨ name = "smithing_trim"
      ∨ name = "crafting_decorated_pot" then .cosmetic
  else if name = "crafting_shaped" then .shaped
  else if name = "crafting_shapeless" then .shapeless
  else if name = "smelting" then .single .smelting
  else if name = "blasting" then .single .blasting
  else if name = "smoking" then .single .smoking
  else if name = "campfire_cooking" then .single .campfire
  else if name = "stonecutting" then .single .stonecutting
  else if name = "smithing_transform" ∨ name = "smithing" then .smithing
  else if name = "crafting_transmute" then .transmute
  else .unrecognized

/-- The layout for a declared type. -/
def ofType (raw : String) : Layout :=
  let raw := Text.trim raw
  match Text.cutFirst ':' raw.toList with
  | none => ofName raw
  | some (space, name) =>
    if String.ofList space = Naming.defaultNamespace then ofName (String.ofList name)
    else .unrecognized

end Layout

end RecipePlanner.Document

import RecipePlanner.DataFile
import RecipePlanner.Expansion

/-!
# Settings

A planner may be told which release to plan for, where the recipes of a release stand, and how far
expansions go. What a settings file leaves out has its standard value.
-/

namespace RecipePlanner

/-- The record of limits. -/
def Limits.shape : Datum.Shape := ⟨"TreeLimits", ["max_depth", "max_branches"]⟩

/-- Limits from their fields. A limit that is left out has its standard value. -/
def Limits.ofDatum? (style : Datum.Style) (d : Datum) : Option Limits :=
  match d.fields? style Limits.shape with
  | some [depth, width] => do
    pure ⟨← Datum.orStandard? Limits.default.depth (Datum.countUpTo? Word.max32) depth,
      ← Datum.orStandard? Limits.default.width (Datum.countUpTo? Word.max64) width⟩
  | _ => none

/-- Limits from a JSON value. -/
def Limits.ofJson? (v : Json) : Option Limits :=
  Limits.ofDatum? .json (Datum.ofJson v)

/-- What a planner may be told. -/
structure Settings where
  /-- The release to plan for. -/
  release : Option Release
  /-- The folder of the recipes in the folder of a release. -/
  recipeFolder : Option String
  limits : Limits
  deriving DecidableEq, Repr

namespace Settings

/-- The settings where nothing is told. -/
def standard : Settings := ⟨none, none, Limits.default⟩

/-- The record of settings. -/
def shape : Datum.Shape :=
  ⟨"PlannerConfigData", ["default_version", "recipe_dir", "limits"]⟩

/-- Settings from their fields. -/
def ofDatum? (style : Datum.Style) (d : Datum) : Option Settings :=
  match d.fields? style shape with
  | some [release, recipeFolder, limits] => do
    let release ← Datum.optional? style (Datum.text? style) release
    let recipeFolder ← Datum.optional? style (Datum.text? style) recipeFolder
    let limits ← Datum.orStandard? Limits.default (Limits.ofDatum? style) limits
    pure ⟨release.map Release.mk, recipeFolder, limits⟩
  | _ => none

/-- The settings in a folder, the standard ones if it has no settings file. -/
def load (t : FileTree) (folder : String) : Except DataFault Settings := do
  match ← DataFile.find? t folder "planner" with
  | some path => DataFile.readRecord t path ofDatum?
  | none => pure standard

/-- The release to plan for: the one told, if the table has it, else the latest. -/
def activeRelease {α : Type} (s : Settings) (table : ReleaseTable α) : Option Release :=
  match s.release with
  | some release =>
    if (table.get? release).isSome then some release else table.latest?.map (·.1)
  | none => table.latest?.map (·.1)

end Settings

end RecipePlanner

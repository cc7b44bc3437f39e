import RecipePlanner.Proofs.Route.Exempt

/-!
# Completeness within wider limits

Whether a route makes all choices that an expansion calls for depends on the expansion only through
the base materials that it shows, which are exempt, and a route stays complete where more of them are
shown (`isCompleteFor_mono`). An expansion within wider limits shows more, so a route that is
complete for one within tighter limits stays complete (`isCompleteFor_widen`).
-/

namespace RecipePlanner.Route

open Expansion (ofId showsBase)

/-- A complete route stays complete for an expansion that shows more base materials. -/
theorem isCompleteFor_mono {e e' : Expansion}
    (h : ∀ id, e.showsBase id = true → e'.showsBase id = true) {r : Route}
    (hr : r.isCompleteFor e = true) : r.isCompleteFor e' = true := by
  rw [isCompleteFor_iff_completeBut] at hr ⊢
  exact hr.mono h

/-- A route that is complete for the expansion of a name within some limits is complete for that
within wider limits, provided that the recipes are uniform. -/
theorem isCompleteFor_widen {rs : List Recipe} (hu : Producers.Uniform rs) (raw : String)
    {limits wider : Limits} (hd : limits.depth ≤ wider.depth) (hw : limits.width ≤ wider.width)
    {r : Route} (hr : r.isCompleteFor (ofId (Producers.ofList rs) raw limits) = true) :
    r.isCompleteFor (ofId (Producers.ofList rs) raw wider) = true :=
  isCompleteFor_mono (fun _ => Expansion.showsBase_widen hu hd hw) hr

/-- A pickaxe of ingots and sticks: within the tighter limits the ingots are cut off and held to have
a choice, and the sticks are a base material. -/
theorem isCompleteFor_widen_pickaxe :
    let p := Producers.ofList Samples.iron
    let name := "minecraft:iron_pickaxe"
    let r := node name (some "crafting_shaped")
      [node "minecraft:iron_ingot" (some "smelting") [], ofItem "minecraft:stick"]
    Producers.Uniform Samples.iron ∧ r.isComplete = false ∧
      r.isCompleteFor (ofId p name ⟨0, 1⟩) = true ∧
      r.isCompleteFor (ofId p name ⟨3, 2⟩) = true := by
  intro p name r
  have hu : Producers.Uniform Samples.iron := by decide +kernel
  have hr : r.isComplete = false ∧ r.isCompleteFor (ofId p name ⟨0, 1⟩) = true := by
    decide +kernel
  exact ⟨hu, hr.1, hr.2, isCompleteFor_widen hu name (by decide) (by decide) hr.2⟩

end RecipePlanner.Route

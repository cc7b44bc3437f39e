import RecipePlanner.Proofs.Expansion.BaseNodes
import RecipePlanner.Proofs.Route.History
import RecipePlanner.Samples

/-!
# Completeness but for exempt items

A route can be held to have a choice at every node, or only at those that an expansion calls for.
Both are one question with different items that need no choice (`CompleteBut`): none at all for a
complete route (`isComplete_iff_completeBut`), the base materials that are shown for a route that
is complete for an expansion (`isCompleteFor_iff_completeBut`). More exempt items ask less of a
route (`CompleteBut.mono`), and a choice never makes a route incomplete, whatever the exempt items
and wherever it is made: at a node that already stands or at a new part of the root
(`CompleteBut.select`). So the choices of a history keep a route complete in both ways
(`complete_selectAll`).
-/

namespace RecipePlanner.Route

variable {exempt : String → Prop}

/-- Every node has a choice but for exempt items, which need none and below which nothing does. -/
inductive CompleteBut (exempt : String → Prop) : Route → Prop where
  | exempt {item : String} {choice : Option String} {parts : List Route} (h : exempt item) :
      CompleteBut exempt (node item choice parts)
  | chosen {item : String} {choice : Option String} {parts : List Route}
      (hchoice : choice.isSome = true) (hparts : ∀ p ∈ parts, CompleteBut exempt p) :
      CompleteBut exempt (node item choice parts)

theorem completeBut_node_iff {item : String} {choice : Option String} {parts : List Route} :
    CompleteBut exempt (node item choice parts) ↔
      exempt item ∨ choice.isSome = true ∧ ∀ p ∈ parts, CompleteBut exempt p := by
  constructor
  · intro h
    cases h with
    | exempt hitem => exact Or.inl hitem
    | chosen hchoice hparts => exact Or.inr ⟨hchoice, hparts⟩
  · rintro (hitem | ⟨hchoice, hparts⟩)
    · exact .exempt hitem
    · exact .chosen hchoice hparts

/-- A complete route stays complete where more items are exempt. -/
theorem CompleteBut.mono {exempt' : String → Prop} (h : ∀ item, exempt item → exempt' item)
    {r : Route} (hr : CompleteBut exempt r) : CompleteBut exempt' r := by
  induction hr with
  | exempt hitem => exact .exempt (h _ hitem)
  | chosen hchoice _ ih => exact .chosen hchoice ih

/-! ## The two kinds of completeness -/

theorem areCompleteFor_iff {e : Expansion} {parts : List Route} :
    areCompleteFor e parts = true ↔ ∀ p ∈ parts, isCompleteFor e p = true := by
  induction parts with
  | nil => simp [areCompleteFor]
  | cons p parts ih => rw [areCompleteFor, Bool.and_eq_true, ih, List.forall_mem_cons]

/-- For a complete route no item is exempt. -/
theorem isComplete_iff_completeBut (r : Route) :
    r.isComplete = true ↔ CompleteBut (fun _ => False) r := by
  induction r using induct with
  | hnode item choice parts ih =>
    rw [isComplete, Bool.and_eq_true, areComplete_iff, completeBut_node_iff, false_or]
    exact and_congr_right fun _ => forall₂_congr ih

/-- For a route that is complete for an expansion, the base materials that this shows are exempt. -/
theorem isCompleteFor_iff_completeBut (e : Expansion) (r : Route) :
    r.isCompleteFor e = true ↔ CompleteBut (fun item => e.showsBase item = true) r := by
  induction r using induct with
  | hnode item choice parts ih =>
    rw [isCompleteFor, Bool.or_eq_true, Bool.and_eq_true, areCompleteFor_iff, completeBut_node_iff]
    exact or_congr_right (and_congr_right fun _ => forall₂_congr ih)

/-! ## Choices -/

theorem completeBut_chosen (item choice : String) : CompleteBut exempt (chosen item choice) :=
  .chosen rfl (List.forall_mem_nil _)

/-- A choice at a node asks no more of the route than before: the node keeps its parts. -/
theorem Changed.completeBut {wanted choice : String} {old new : Route}
    (h : Changed (withChoice choice) wanted old new) (hold : CompleteBut exempt old) :
    CompleteBut exempt new := by
  induction h with
  | here choice' parts =>
    cases hold with
    | exempt hitem => exact .exempt hitem
    | chosen _ hparts => exact .chosen rfl hparts
  | inPart _ _ _ ih =>
    -- At an exempt node above the change nothing is asked of the part that changes.
    cases hold with
    | exempt hitem => exact .exempt hitem
    | chosen hchoice hparts => exact .chosen hchoice (forall_mem_replace hparts ih)

/-- A new part with a choice is all right below any root. -/
theorem CompleteBut.addPart_chosen {r : Route} (h : CompleteBut exempt r) (item choice : String) :
    CompleteBut exempt (r.addPart (Route.chosen item choice)) := by
  cases h with
  | exempt hitem => exact .exempt hitem
  | chosen hchoice hparts =>
    refine .chosen hchoice (List.forall_mem_append.2 ⟨hparts, ?_⟩)
    exact List.forall_mem_singleton.2 (completeBut_chosen item choice)

/-- A choice keeps a route complete. -/
theorem CompleteBut.select {r : Route} (h : CompleteBut exempt r) (item choice : String) :
    CompleteBut exempt (r.select item choice) := by
  rw [Route.select]
  cases hnew : updateFirst? (withChoice choice) item r with
  | some new => exact (changed_of_updateFirst? r hnew).completeBut h
  | none => exact h.addPart_chosen item choice

/-- The choices of a history keep a route complete. -/
theorem CompleteBut.selectAll {r : Route} (h : CompleteBut exempt r) (history : History) :
    CompleteBut exempt (r.selectAll history) := by
  induction history generalizing r with
  | nil => exact h
  | cons made history ih =>
    rw [selectAll_cons]
    exact ih (h.select made.1 made.2)

/-- No choices undo completeness. A complete route is complete after any history of choices, one
that is complete for an expansion stays so, whatever expansion it is, and a complete route is
complete for every expansion. -/
theorem complete_selectAll (r : Route) (history : History) :
    (r.isComplete = true → (r.selectAll history).isComplete = true) ∧
    ∀ e : Expansion,
      (r.isCompleteFor e = true → (r.selectAll history).isCompleteFor e = true) ∧
      (r.isComplete = true → r.isCompleteFor e = true) := by
  simp only [isComplete_iff_completeBut, isCompleteFor_iff_completeBut]
  refine ⟨fun h => h.selectAll history, fun e => ⟨fun h => h.selectAll history, fun h => ?_⟩⟩
  exact h.mono fun _ => False.elim

/-- A pickaxe of ingots and of sticks, which are a base material: choices for the ingot, for what
stands below the stick and for a new item keep it complete, though no choice was made for the
stick. -/
theorem complete_selectAll_pickaxe :
    let e := Expansion.ofId (Producers.ofList Samples.iron) "minecraft:iron_pickaxe" ⟨4, 5⟩
    let r := node "minecraft:iron_pickaxe" (some "crafting_shaped")
      [chosen "minecraft:iron_ingot" "smelting",
        node "minecraft:stick" none [ofItem "minecraft:bamboo"]]
    let history := [("minecraft:iron_ingot", "crafting_shapeless"), ("minecraft:bamboo", "farming"),
      ("minecraft:string", "trading")]
    r.isComplete = false ∧ r.isCompleteFor e = true ∧
      (r.selectAll history).isComplete = false ∧ (r.selectAll history).isCompleteFor e = true := by
  intro e r history
  have hr : r.isComplete = false ∧ r.isCompleteFor e = true ∧
      (r.selectAll history).isComplete = false := by
    decide +kernel
  exact ⟨hr.1, hr.2.1, hr.2.2, ((complete_selectAll r history).2 e).1 hr.2.1⟩

end RecipePlanner.Route

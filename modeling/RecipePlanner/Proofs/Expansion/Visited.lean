import RecipePlanner.Proofs.Expansion.Nodes
import Mathlib.Data.Finset.Erase
import Mathlib.Data.Finset.Insert

/-!
# One set of visited identifiers

`grow` hands every node the identifiers above it. A walk may as well keep one set for all nodes
(`visit`): it enters an identifier before what is needed below it and takes it out behind. The set
then holds exactly the identifiers above the node that is visited, whatever was visited before, so
the walk finds the same expansion and leaves the set as it was (`runs_visit`, `run_visit_empty`).
-/

namespace RecipePlanner.Expansion

/-- A step of a walk that keeps the identifiers it stands below. -/
abbrev Walk := StateM (Finset String)

/-- The node for a material, given how the materials that a recipe needs are visited. -/
def visitWith (p : Producers) (width : Nat) (m : Material) (visitNeed : Material → Walk Expansion) :
    Walk Expansion := do
  if m.id ∈ (← get) then return terminal m .cycle
  match alternatives p m with
  | [] => return terminal m .base
  | as => do
    modify (insert m.id)
    let bs ← (as.take width).mapM fun (score, choice) => do
      let needs ← choice.recipe.distinctNeeds.mapM visitNeed
      return Branch.mk choice score needs
    modify (·.erase m.id)
    return node m bs (as.length - width) none

/-- The node for a material where the depth is used up. -/
def visitCutOff (p : Producers) (m : Material) : Walk Expansion := do
  if m.id ∈ (← get) then return terminal m .cycle
  else if p.isBase m then return terminal m .base
  else return terminal m .depthLimit

/-- The expansion of a material with `depth` levels below it. -/
def visit (p : Producers) (width : Nat) : (depth : Nat) → Material → Walk Expansion
  | 0, m => visitWith p width m (visitCutOff p)
  | depth + 1, m => visitWith p width m (visit p width depth)

/-! ## Walks that leave the set as it was -/

/-- The set holds exactly the identifiers of the lineage. -/
def Holds (visited : Finset String) (lineage : List String) : Prop :=
  ∀ id, id ∈ visited ↔ id ∈ lineage

/-- Below the lineage, the step finds `a` and leaves the set as it was. -/
def Runs {α : Type} (step : Walk α) (lineage : List String) (a : α) : Prop :=
  ∀ visited, Holds visited lineage →
    ∃ visited', step.run visited = (a, visited') ∧ Holds visited' lineage

theorem Holds.insert {visited : Finset String} {lineage : List String} (h : Holds visited lineage)
    (id : String) : Holds (insert id visited) (id :: lineage) := by
  intro other
  rw [Finset.mem_insert, List.mem_cons, h other]

theorem Holds.erase {visited : Finset String} {lineage : List String} {id : String}
    (h : Holds visited (id :: lineage)) (hid : id ∉ lineage) :
    Holds (visited.erase id) lineage := by
  intro other
  rw [Finset.mem_erase, h other, List.mem_cons]
  constructor
  · rintro ⟨hne, rfl | hmem⟩
    · exact absurd rfl hne
    · exact hmem
  · intro hmem
    exact ⟨fun heq => hid (heq ▸ hmem), Or.inr hmem⟩

section Runs

variable {α β : Type} {lineage : List String}

theorem runs_pure (a : α) : Runs (pure a) lineage a :=
  fun visited h => ⟨visited, rfl, h⟩

theorem runs_bind {step : Walk α} {next : α → Walk β} {a : α} {b : β} (h : Runs step lineage a)
    (hnext : Runs (next a) lineage b) : Runs (step >>= next) lineage b := by
  intro visited hv
  obtain ⟨between, hstep, hbetween⟩ := h visited hv
  obtain ⟨after, hrun, hafter⟩ := hnext between hbetween
  refine ⟨after, ?_, hafter⟩
  rw [StateT.run_bind, hstep]
  exact hrun

theorem runs_mapM {f : α → Walk β} {g : α → β} (h : ∀ a, Runs (f a) lineage (g a)) (as : List α) :
    Runs (as.mapM f) lineage (as.map g) := by
  induction as with
  | nil => exact runs_pure []
  | cons a as ih =>
    rw [List.mapM_cons]
    exact runs_bind (h a) (runs_bind ih (runs_pure _))

/-- Asking whether an identifier was visited is asking whether it is in the lineage. -/
theorem runs_ite_mem {id : String} {step other : Walk α} {a : α}
    (hmem : id ∈ lineage → Runs step lineage a) (hnot : id ∉ lineage → Runs other lineage a) :
    Runs (do if id ∈ (← get) then step else other) lineage a := by
  intro visited hv
  by_cases h : id ∈ lineage
  · obtain ⟨after, hrun, hafter⟩ := hmem h visited hv
    refine ⟨after, ?_, hafter⟩
    rw [StateT.run_bind, StateT.run_get, pure_bind, if_pos ((hv id).2 h), hrun]
  · obtain ⟨after, hrun, hafter⟩ := hnot h visited hv
    refine ⟨after, ?_, hafter⟩
    rw [StateT.run_bind, StateT.run_get, pure_bind, if_neg (mt (hv id).1 h), hrun]

/-- A step between entering an identifier and taking it out again stands one level lower. -/
theorem runs_between {id : String} {step : Walk α} {next : α → Walk β} {a : α} {b : β}
    (hid : id ∉ lineage) (h : Runs step (id :: lineage) a) (hnext : Runs (next a) lineage b) :
    Runs (do modify (insert id); let a ← step; modify (·.erase id); next a) lineage b := by
  intro visited hv
  obtain ⟨between, hstep, hbetween⟩ := h _ (hv.insert id)
  obtain ⟨after, hrun, hafter⟩ := hnext _ (hbetween.erase hid)
  refine ⟨after, ?_, hafter⟩
  rw [StateT.run_bind, StateT.run_modify, pure_bind, StateT.run_bind, hstep]
  exact hrun

end Runs

/-! ## The walk -/

variable (p : Producers) (width : Nat)

theorem runs_visitCutOff (lineage : List String) (m : Material) :
    Runs (visitCutOff p m) lineage (cutOff p lineage m) := by
  rw [visitCutOff, cutOff]
  refine runs_ite_mem (fun h => ?_) (fun h => ?_)
  · rw [if_pos h]
    exact runs_pure _
  · rw [if_neg h]
    cases p.isBase m with
    | true => exact runs_pure _
    | false => exact runs_pure _

theorem runs_visitWith {visitNeed : Material → Walk Expansion}
    {expand : List String → Material → Expansion}
    (h : ∀ lineage m, Runs (visitNeed m) lineage (expand lineage m)) (lineage : List String)
    (m : Material) :
    Runs (visitWith p width m visitNeed) lineage (nodeWith p width lineage m expand) := by
  rw [visitWith]
  refine runs_ite_mem (fun hmem => ?_) (fun hmem => ?_)
  · rw [nodeWith_of_mem width expand hmem]
    exact runs_pure _
  · by_cases halt : alternatives p m = []
    · rw [nodeWith_of_base width expand hmem halt, halt]
      exact runs_pure _
    · rw [nodeWith_of_alternatives width expand hmem halt]
      have hbuild : ∀ a : Alternative, Runs
          (do let needs ← a.2.recipe.distinctNeeds.mapM visitNeed
              return Branch.mk a.2 a.1 needs) (m.id :: lineage)
          (build (expand (m.id :: lineage)) a) :=
        fun a => runs_bind (runs_mapM (h (m.id :: lineage)) a.2.recipe.distinctNeeds) (runs_pure _)
      -- The definition asks for the shape of the alternatives.
      obtain ⟨a, as, has⟩ := List.exists_cons_of_ne_nil halt
      rw [has]
      exact runs_between hmem (runs_mapM hbuild _) (runs_pure _)

/-- At every material, wherever the walk stands, it finds what is grown under the lineage and leaves
the set as it was. -/
theorem runs_visit (depth : Nat) (lineage : List String) (m : Material) :
    Runs (visit p width depth m) lineage (grow p width depth lineage m) := by
  induction depth generalizing lineage m with
  | zero => exact runs_visitWith p width (runs_visitCutOff p) lineage m
  | succ depth ih => exact runs_visitWith p width ih lineage m

/-- The walk from an empty set finds the expansion and leaves the set empty. -/
theorem run_visit_empty (m : Material) (limits : Limits) :
    (visit p limits.width limits.depth m).run ∅ = (ofMaterial p m limits, ∅) := by
  obtain ⟨visited, hrun, hvisited⟩ := runs_visit p limits.width limits.depth [] m ∅
    (fun id => iff_of_false (Finset.notMem_empty id) List.not_mem_nil)
  have hempty : visited = ∅ :=
    Finset.eq_empty_of_forall_notMem fun id hid => List.not_mem_nil ((hvisited id).1 hid)
  rw [hrun, hempty, ofMaterial]

end RecipePlanner.Expansion

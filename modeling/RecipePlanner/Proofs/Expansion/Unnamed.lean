import RecipePlanner.Proofs.Expansion.BaseNodes
import RecipePlanner.Proofs.Expansion.Ranking
import RecipePlanner.Proofs.Producers.Unnamed
import RecipePlanner.Proofs.Route.Exempt
import RecipePlanner.Samples

/-!
# Names never decide

An expansion grown from producers without names is the expansion without names (`growTo_unnamed`):
what is a cycle, what is a base material, how branches are ranked and where the depth is used up goes
by identifiers only. So recipes that differ in nothing but the names of their materials have
expansions that differ in nothing but names, and a route is complete for both or for neither
(`answers_of_unnamed_eq`).
-/

namespace RecipePlanner

mutual

/-- The expansion without names. -/
def Expansion.unnamed : Expansion → Expansion
  | .node m bs more stop => .node m.unnamed (Branch.unnamedAll bs) more stop

/-- The branch without names. -/
def Branch.unnamed : Branch → Branch
  | .mk choice score needs => .mk choice.unnamed score (Expansion.unnamedAll needs)

/-- Some branches without names. -/
def Branch.unnamedAll : List Branch → List Branch
  | [] => []
  | b :: bs => b.unnamed :: Branch.unnamedAll bs

/-- Some expansions without names. -/
def Expansion.unnamedAll : List Expansion → List Expansion
  | [] => []
  | e :: es => e.unnamed :: Expansion.unnamedAll es

end

theorem Expansion.unnamedAll_eq_map (es : List Expansion) : unnamedAll es = es.map unnamed := by
  induction es with
  | nil => rfl
  | cons e es ih => rw [unnamedAll, ih, List.map_cons]

theorem Branch.unnamedAll_eq_map (bs : List Branch) : unnamedAll bs = bs.map unnamed := by
  induction bs with
  | nil => rfl
  | cons b bs ih => rw [unnamedAll, ih, List.map_cons]

theorem Branch.unnamed_mk (choice : KeyedRecipe) (score : Score) (needs : List Expansion) :
    (mk choice score needs).unnamed = mk choice.unnamed score (needs.map Expansion.unnamed) := by
  rw [unnamed, Expansion.unnamedAll_eq_map]

theorem Branch.needs_unnamed (b : Branch) : b.unnamed.needs = b.needs.map Expansion.unnamed := by
  obtain ⟨choice, score, needs⟩ := b
  rw [unnamed_mk, Branch.needs, Branch.needs]

namespace Expansion

theorem unnamed_node (m : Material) (bs : List Branch) (more : Nat) (stop : Option Stop) :
    (node m bs more stop).unnamed = node m.unnamed (bs.map Branch.unnamed) more stop := by
  rw [unnamed, Branch.unnamedAll_eq_map]

theorem unnamed_terminal (m : Material) (s : Stop) :
    (terminal m s).unnamed = terminal m.unnamed s :=
  unnamed_node m [] 0 (some s)

theorem material_unnamed (e : Expansion) : e.unnamed.material = e.material.unnamed := by
  obtain ⟨m, bs, more, stop⟩ := e
  rw [unnamed_node, material, material]

theorem stop_unnamed (e : Expansion) : e.unnamed.stop = e.stop := by
  obtain ⟨m, bs, more, s⟩ := e
  rw [unnamed_node, stop, stop]

/-! ## Growing without names -/

section Growing

/-- The alternative without names. -/
def unnamedAlternative : Alternative → Alternative
  | (score, choice) => (score, choice.unnamed)

/-- Alternatives are ranked by their scores, so a change that keeps these goes before ranking as well
as behind it. -/
theorem rank_map {f : Alternative → Alternative} (hf : ∀ a, (f a).1 = a.1)
    (as : List Alternative) : rank (as.map f) = (rank as).map f := by
  rw [rank_eq_insertionSort, rank_eq_insertionSort]
  apply Eq.symm
  apply List.map_insertionSort
  intro a _ b _
  rw [hf, hf]

variable (p : Producers) (width : Nat) (lineage : List String)

/-- A recipe has the same score. -/
theorem scoreOf_unnamed (r : Recipe) : scoreOf p.unnamed r.unnamed = scoreOf p r := by
  have hbase : p.unnamed.isBase ∘ Material.unnamed = p.isBase := funext p.isBase_unnamed
  rw [scoreOf, r.distinctNeeds_unnamed, List.length_map, List.all_map, hbase, scoreOf]

/-- The alternatives for a material are ranked in the same way. -/
theorem alternatives_unnamed (m : Material) :
    alternatives p.unnamed m.unnamed = (alternatives p m).map unnamedAlternative := by
  have hscored : (p.unnamed.keyed m.unnamed).map (fun k => (scoreOf p.unnamed k.recipe, k)) =
      ((p.keyed m).map fun k => (scoreOf p k.recipe, k)).map unnamedAlternative := by
    rw [p.keyed_unnamed, List.map_map, List.map_map]
    apply List.map_congr_left
    intro k _
    exact congrArg (·, k.unnamed) (scoreOf_unnamed p k.recipe)
  rw [alternatives, hscored, rank_map (f := unnamedAlternative) fun _ => rfl, alternatives]

theorem build_unnamed {expand expand' : Material → Expansion}
    (h : ∀ m, expand' m.unnamed = (expand m).unnamed) (a : Alternative) :
    build expand' (unnamedAlternative a) = (build expand a).unnamed := by
  obtain ⟨score, choice⟩ := a
  have hneeds : choice.unnamed.recipe.distinctNeeds.map expand' =
      (choice.recipe.distinctNeeds.map expand).map unnamed := by
    rw [KeyedRecipe.unnamed, Recipe.distinctNeeds_unnamed, List.map_map, List.map_map]
    exact List.map_congr_left fun m _ => h m
  rw [unnamedAlternative, build, build, Branch.unnamed_mk, hneeds]

theorem cutOff_unnamed (m : Material) :
    cutOff p.unnamed lineage m.unnamed = (cutOff p lineage m).unnamed := by
  rw [cutOff, p.isBase_unnamed, m.id_unnamed, cutOff]
  split
  · exact (unnamed_terminal m .cycle).symm
  · split
    · exact (unnamed_terminal m .base).symm
    · exact (unnamed_terminal m .depthLimit).symm

theorem nodeWith_unnamed {expand expand' : List String → Material → Expansion}
    (h : ∀ l m, expand' l m.unnamed = (expand l m).unnamed) (m : Material) :
    nodeWith p.unnamed width lineage m.unnamed expand' =
      (nodeWith p width lineage m expand).unnamed := by
  have halternatives := alternatives_unnamed p m
  rcases nodeWith_cases p width lineage m expand with
    ⟨hmem, hn⟩ | ⟨hmem, hnone, hn⟩ | ⟨hmem, hsome, hn⟩
  · rw [hn, nodeWith_of_mem _ _ (by rwa [m.id_unnamed]), unnamed_terminal]
  · rw [hnone, List.map_nil] at halternatives
    rw [hn, nodeWith_of_base _ _ (by rwa [m.id_unnamed]) halternatives, unnamed_terminal]
  · have hsome' : alternatives p.unnamed m.unnamed ≠ [] := by
      rwa [halternatives, Ne, List.map_eq_nil_iff]
    rw [hn, nodeWith_of_alternatives _ _ (by rwa [m.id_unnamed]) hsome', halternatives,
      unnamed_node, List.length_map, ← List.map_take, List.map_map, List.map_map, m.id_unnamed]
    refine congrArg (node m.unnamed · _ none) ?_
    exact List.map_congr_left fun a _ => build_unnamed (h (m.id :: lineage)) a

/-- What is grown without names is what is grown, without its names. -/
theorem growTo_unnamed (n : Nat) (m : Material) :
    growTo p.unnamed width n lineage m.unnamed = (growTo p width n lineage m).unnamed := by
  induction n generalizing lineage m with
  | zero => exact cutOff_unnamed p lineage m
  | succ n ih =>
    rw [growTo_succ, growTo_succ]
    exact nodeWith_unnamed p width lineage (fun l m => ih l m) m

theorem ofMaterial_unnamed (m : Material) (limits : Limits) :
    ofMaterial p.unnamed m.unnamed limits = (ofMaterial p m limits).unnamed := by
  rw [ofMaterial_eq_growTo, growTo_unnamed, ofMaterial_eq_growTo]

end Growing

/-! ## Searching without names -/

theorem findSome?_congr {α β : Type} {f g : α → Option β} {xs : List α}
    (h : ∀ x ∈ xs, f x = g x) : xs.findSome? f = xs.findSome? g := by
  rw [← List.head?_filterMap, List.filterMap_congr h, List.head?_filterMap]

/-- A search that does not look at names finds the same node. -/
theorem findWhere?_unnamed {wanted : Expansion → Bool} (h : ∀ e, wanted e.unnamed = wanted e)
    (e : Expansion) : findWhere? wanted e.unnamed = (findWhere? wanted e).map unnamed := by
  induction e using induct with
  | hnode m bs more stop ih =>
    rw [findWhere?_node, ← h, unnamed_node, findWhere?_node]
    split
    · rw [Option.map_some, unnamed_node]
    · -- Below the node the search goes through the same branches and needs.
      rw [List.findSome?_map, List.map_findSome?]
      apply findSome?_congr
      intro b hb
      rw [Function.comp_apply, Function.comp_apply, b.needs_unnamed, List.findSome?_map,
        List.map_findSome?]
      exact findSome?_congr fun e he => ih b hb e he

/-- The same base materials are shown. -/
theorem showsBase_unnamed (e : Expansion) : e.unnamed.showsBase = e.showsBase := by
  funext id
  rw [showsBase, showsBase, findResolved?, findResolved?, findWhere?_unnamed, Option.map_map]
  · congr 2
    funext x
    rw [Function.comp_apply, isBase, isBase, stop_unnamed]
  · intro x
    rw [material_unnamed, stop_unnamed, Material.id_unnamed]

end Expansion

/-- A route is complete for an expansion without names exactly if it is for the expansion. -/
theorem Route.isCompleteFor_unnamed (e : Expansion) (r : Route) :
    r.isCompleteFor e.unnamed = r.isCompleteFor e := by
  rw [Bool.eq_iff_iff, isCompleteFor_iff_completeBut, isCompleteFor_iff_completeBut,
    e.showsBase_unnamed]

/-! ## Recipes with other names -/

namespace Expansion

open Producers (ofList)

variable {rs rs' : List Recipe}

/-- Recipes that differ in nothing but the names of their materials: there are as many of them and of
items that they make, the same materials are base materials, and a material has the same alternatives
under the same keys. What is looked up for a name and the expansion of it differ in nothing but names,
and a route is complete for both expansions or for neither. -/
theorem answers_of_unnamed_eq (h : rs.map Recipe.unnamed = rs'.map Recipe.unnamed) :
    let p := ofList rs
    let q := ofList rs'
    p.size = q.size ∧ p.itemCount = q.itemCount ∧
    (∀ m n : Material, m.unnamed = n.unnamed →
      p.isBase m = q.isBase n ∧
        (p.keyed m).map KeyedRecipe.unnamed = (q.keyed n).map KeyedRecipe.unnamed) ∧
    ∀ raw limits,
      (p.lookup raw).unnamed = (q.lookup raw).unnamed ∧
      (ofId p raw limits).unnamed = (ofId q raw limits).unnamed ∧
      ∀ r : Route, r.isCompleteFor (ofId p raw limits) = r.isCompleteFor (ofId q raw limits) := by
  intro p q
  have hpq : p.unnamed = q.unnamed := by
    rw [← Producers.ofList_map_unnamed, h, Producers.ofList_map_unnamed]
  have hlookup : ∀ raw, (p.lookup raw).unnamed = (q.lookup raw).unnamed := by
    intro raw
    rw [← p.lookup_unnamed, hpq, q.lookup_unnamed]
  have hexpansion : ∀ raw limits, (ofId p raw limits).unnamed = (ofId q raw limits).unnamed := by
    intro raw limits
    rw [ofId, ← ofMaterial_unnamed, hpq, hlookup, ofMaterial_unnamed, ofId]
  refine ⟨?_, congrArg (·.byItem.length) hpq, fun m n hmn => ⟨?_, ?_⟩, fun raw limits =>
    ⟨hlookup raw, hexpansion raw limits, fun r => ?_⟩⟩
  · rw [← p.size_unnamed, hpq, q.size_unnamed]
  · rw [← p.isBase_unnamed, hpq, hmn, q.isBase_unnamed]
  · rw [← p.keyed_unnamed, hpq, hmn, q.keyed_unnamed]
  · rw [← Route.isCompleteFor_unnamed, hexpansion, Route.isCompleteFor_unnamed]

/-- Sticks of any planks and planks of logs, with two sets of names: other forms are known for the
planks, and the expansions of sticks are the same except for that. The route that makes sticks of
planks and leaves these open is complete for neither, the one that makes the planks as well for both. -/
theorem answers_of_unnamed_eq_sticks :
    let recipes := fun oak planks stick : String =>
      [Recipe.mk .shaped "stick.json" [⟨.tag ⟨"#planks", planks, [⟨"oak_planks", oak⟩]⟩, .one⟩]
          [⟨.item ⟨"stick", stick⟩, .one⟩],
        Recipe.mk .shapeless "oak_planks.json" [Samples.stack "oak_log" 1]
          [⟨.item ⟨"oak_planks", oak⟩, .one⟩]]
    let rs := recipes "Oak Planks" "Planks" "Stick"
    let rs' := recipes "Planches de chêne" "Planches" "Bâton"
    let p := ofList rs
    let q := ofList rs'
    let planks := Route.node "#planks" (some "crafting_shapeless") [.ofItem "oak_log"]
    let e := ofId p "stick" .default
    let f := ofId q "stick" .default
    rs.map Recipe.unnamed = rs'.map Recipe.unnamed ∧ p.lookup "#planks" ≠ q.lookup "#planks" ∧
      (p.lookup "#planks").unnamed = (q.lookup "#planks").unnamed ∧ e.branches.length = 1 ∧
      e.unnamed = f.unnamed ∧
      (Route.node "stick" (some "crafting_shaped") [.ofItem "#planks"]).isCompleteFor f = false ∧
      (Route.node "stick" (some "crafting_shaped") [planks]).isCompleteFor f = true := by
  intro recipes rs rs' p q planks e f
  have hrs : rs.map Recipe.unnamed = rs'.map Recipe.unnamed := by decide +kernel
  obtain ⟨-, -, -, hall⟩ := answers_of_unnamed_eq hrs
  obtain ⟨-, hexpansion, hroute⟩ := hall "stick" .default
  refine ⟨hrs, by decide +kernel, (hall "#planks" .default).1, by decide +kernel, hexpansion, ?_, ?_⟩
  · exact (hroute _).symm.trans (by decide +kernel)
  · exact (hroute _).symm.trans (by decide +kernel)

end Expansion

end RecipePlanner

import Mathlib.Data.List.Perm.Basic
import RecipePlanner.Expansion
import RecipePlanner.Proofs.Producers.Filtering
import RecipePlanner.Proofs.Producers.Forms
import RecipePlanner.Samples

/-!
# Recipes in any order

Recipes may be handed over in any order, for instance those of several batches as they become ready.
The tables themselves depend on the order: positions count the recipes before, and the form known for
an identifier goes back to one mention of it. What can be asked of them does not, as long as the
recipes are uniform (`answers_of_perm`).
-/

namespace RecipePlanner.Producers

variable {rs rs' : List Recipe}

theorem mem_mentions_iff_of_perm (h : rs.Perm rs') (m : Material) :
    m ∈ mentions rs ↔ m ∈ mentions rs' := by
  simp only [mem_mentions_iff, h.mem_iff]

theorem mem_yielded_iff_of_perm (h : rs.Perm rs') (m : Material) :
    m ∈ yielded rs ↔ m ∈ yielded rs' := by
  simp only [mem_yielded_iff, h.mem_iff]

theorem size_eq_of_perm (h : rs.Perm rs') : (ofList rs).size = (ofList rs').size := by
  rw [size_ofList, size_ofList, (h.filter _).length_eq]

/-- As many items have an entry, because the same items have one and none has two. -/
theorem itemCount_eq_of_perm (h : rs.Perm rs') :
    (ofList rs).itemCount = (ofList rs').itemCount := by
  have hitems : ((ofList rs).byItem.map (·.1)).Perm ((ofList rs').byItem.map (·.1)) := by
    apply (List.perm_ext_iff_of_nodup (nodup_byItem_ofList rs) (nodup_byItem_ofList rs')).2
    intro item
    simp only [mem_byItem_ofList_iff, mem_yielded_iff_of_perm h]
  have hlength := hitems.length_eq
  rwa [List.length_map, List.length_map] at hlength

section SameItems

variable (h : rs.Perm rs') {m n : Material} (hitems : (ofList rs).members m = (ofList rs').members n)

include h hitems

/-- For the same items there are the same recipes, up to their order. -/
theorem producing_perm : ((ofList rs).producing m).Perm ((ofList rs').producing n) := by
  rw [producing_ofList, producing_ofList, hitems]
  apply (inTurn_perm _ _ _).trans
  exact ((h.filter _).filter _).trans (inTurn_perm _ _ _).symm

theorem isBase_eq_of_perm : (ofList rs).isBase m = (ofList rs').isBase n := by
  rw [Bool.eq_iff_iff, isBase_iff_producing (inRange_ofList rs),
    isBase_iff_producing (inRange_ofList rs'), ← List.length_eq_zero_iff, ← List.length_eq_zero_iff,
    (producing_perm h hitems).length_eq]

end SameItems

/-- Uniform recipes in another order: there are as many recipes and as many items with a recipe, every
name has the same recipes up to their order and is a base material or not, and every recipe has the
same score. -/
theorem answers_of_perm (hu : Uniform rs) (h : rs.Perm rs') :
    let p := ofList rs
    let p' := ofList rs'
    p.size = p'.size ∧ p.itemCount = p'.itemCount ∧
    (∀ raw, (p.producing (p.lookup raw)).Perm (p'.producing (p'.lookup raw)) ∧
      p.isBase (p.lookup raw) = p'.isBase (p'.lookup raw)) ∧
    ∀ r, Expansion.scoreOf p r = Expansion.scoreOf p' r := by
  intro p p'
  have hlookup := sameForm_lookup_of_mem_iff hu (mem_mentions_iff_of_perm h)
  refine ⟨size_eq_of_perm h, itemCount_eq_of_perm h, fun raw => ?_, fun r => ?_⟩
  · have hitems := members_congr hlookup (hlookup raw)
    exact ⟨producing_perm h hitems, isBase_eq_of_perm h hitems⟩
  · have hbase : p.isBase = p'.isBase := by
      funext m
      exact isBase_eq_of_perm h (members_congr hlookup (.refl m))
    rw [Expansion.scoreOf, Expansion.scoreOf, hbase]

/-- Two kinds of planks and the sticks made of either, in two orders: the recipes for the tag of all
planks change places. -/
theorem answers_of_perm_planks :
    let planks : Material := .tag ⟨"#planks", "Planks", [Item.ofId "oak", Item.ofId "birch"]⟩
    let oak := Samples.recipe .shapeless "oak.json" [("oak_log", 1)] "oak" 4
    let birch := Samples.recipe .shapeless "birch.json" [("birch_log", 1)] "birch" 4
    let stick : Recipe := ⟨.shaped, "stick.json", [⟨planks, Amount.clamp 2⟩], [Samples.stack "stick" 4]⟩
    let p := ofList [oak, stick, birch]
    let p' := ofList [stick, birch, oak]
    Uniform [oak, stick, birch] ∧ [oak, stick, birch].Perm [stick, birch, oak] ∧
      p.positions (p.lookup "#planks") = [0, 2] ∧ p'.positions (p'.lookup "#planks") = [2, 1] ∧
      p.size = p'.size ∧
      (p.producing (p.lookup "#planks")).Perm (p'.producing (p'.lookup "#planks")) := by
  intro planks oak birch stick p p'
  have hu : Uniform [oak, stick, birch] := by decide +kernel
  have h : [oak, stick, birch].Perm [stick, birch, oak] :=
    (List.perm_append_singleton oak [stick, birch]).symm
  have hpositions : p.positions (p.lookup "#planks") = [0, 2] ∧
      p'.positions (p'.lookup "#planks") = [2, 1] := by decide +kernel
  obtain ⟨hsize, -, hnames, -⟩ := answers_of_perm hu h
  exact ⟨hu, h, hpositions.1, hpositions.2, hsize, (hnames "#planks").1⟩

end RecipePlanner.Producers

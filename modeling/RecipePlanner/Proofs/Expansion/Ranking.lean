import Mathlib.Data.List.Sort
import RecipePlanner.Proofs.Expansion.Nodes
import RecipePlanner.Samples

/-!
# The ranking of the branches of a node

One recipe is better than another if it needs fewer materials, or as many and it alone needs only
what nothing produces (`Better`). A ranking of some recipes loses none, has no recipe behind a worse
one and keeps the order of those that are equally good (`IsRanking`); these rules leave no choice
(`isRanking_iff`). The branches of a node that does not end are the first recipes of the ranking of
all recipes for its material, the others are counted, and below a branch there is one node for each
identifier that its recipe needs (`branches_of_nodeAt`).
-/

namespace RecipePlanner

/-! ## The order of scores -/

namespace Score

/-- Of two scores, one may stand before the other. -/
theorem before_total (a b : Score) : a.before b = true ∨ b.before a = true := by
  grind [before]

theorem before_trans {a b c : Score} (hab : a.before b = true) (hbc : b.before c = true) :
    a.before c = true := by
  grind [before]

/-- Only equal scores may stand in either order. -/
theorem before_antisymm {a b : Score} (hab : a.before b = true) (hba : b.before a = true) :
    a = b := by
  obtain ⟨n, x⟩ := a
  obtain ⟨k, y⟩ := b
  grind [before]

end Score

namespace Expansion

/-- The recipe needs nothing but what no recipe yields. -/
def NeedsOnlyBase (p : Producers) (r : Recipe) : Prop := ∀ m ∈ r.distinctNeeds, p.isBase m = true

instance (p : Producers) (r : Recipe) : Decidable (NeedsOnlyBase p r) :=
  inferInstanceAs (Decidable (∀ m ∈ _, _))

/-- The recipe `r` needs fewer materials than `s`, or as many and it alone needs only base
materials. -/
def Better (p : Producers) (r s : Recipe) : Prop :=
  r.distinctNeeds.length < s.distinctNeeds.length ∨
    r.distinctNeeds.length = s.distinctNeeds.length ∧ NeedsOnlyBase p r ∧ ¬ NeedsOnlyBase p s

instance (p : Producers) (r s : Recipe) : Decidable (Better p r s) :=
  inferInstanceAs (Decidable (_ ∨ _))

/-- Neither of two recipes is better than the other. -/
def Tied (p : Producers) (r s : Recipe) : Prop := ¬ Better p r s ∧ ¬ Better p s r

instance (p : Producers) (r s : Recipe) : Decidable (Tied p r s) :=
  inferInstanceAs (Decidable (_ ∧ _))

/-- The recipes of `given` in order of rank: none stands behind a worse one, and among equally good
ones the order is that of `given`. -/
structure IsRanking (p : Producers) (given ranked : List KeyedRecipe) : Prop where
  perm : ranked.Perm given
  sorted : ranked.Pairwise fun a b => ¬ Better p b.recipe a.recipe
  ties : ∀ r, ranked.filter (Tied p r ·.recipe) = given.filter (Tied p r ·.recipe)

/-! ## Scores tell which recipe is better -/

variable {p : Producers}

theorem before_scoreOf_iff (r s : Recipe) :
    (scoreOf p r).before (scoreOf p s) = true ↔ ¬ Better p s r := by
  have hbase : ∀ t, (scoreOf p t).allBase = true ↔ NeedsOnlyBase p t :=
    fun t => List.all_eq_true
  have hneeds : ∀ t, (scoreOf p t).needs = t.distinctNeeds.length := fun t => rfl
  grind [Score.before, Better]

theorem tied_iff (r s : Recipe) : Tied p r s ↔ scoreOf p r = scoreOf p s := by
  rw [Tied, ← before_scoreOf_iff, ← before_scoreOf_iff]
  constructor
  · rintro ⟨hsr, hrs⟩
    exact Score.before_antisymm hrs hsr
  · intro h
    rw [h, or_self_iff.1 (Score.before_total (scoreOf p s) (scoreOf p s))]
    exact ⟨rfl, rfl⟩

/-! ## Ranking is a stable sort -/

section Sorted

variable {α : Type} (score : α → Score)

/-- Of two lists in order of their scores, with the same elements and those of one score in the same
order, there is only one. -/
theorem eq_of_sorted_of_filter {as bs : List α}
    (has : as.Pairwise fun a b => (score a).before (score b) = true)
    (hbs : bs.Pairwise fun a b => (score a).before (score b) = true) (hperm : as.Perm bs)
    (hties : ∀ c, as.filter (score c = score ·) = bs.filter (score c = score ·)) : as = bs := by
  induction as generalizing bs with
  | nil => exact hperm.nil_eq
  | cons a as ih =>
    cases bs with
    | nil => exact hperm.eq_nil
    | cons b bs =>
      obtain ⟨hfirst, hrest⟩ := List.pairwise_cons.1 has
      obtain ⟨hfirst', hrest'⟩ := List.pairwise_cons.1 hbs
      -- Each of the two first elements may stand before the other, so they have one score.
      have hab : score a = score b := by
        rcases List.mem_cons.1 (hperm.mem_iff.1 List.mem_cons_self) with rfl | ha
        · rfl
        · rcases List.mem_cons.1 (hperm.mem_iff.2 List.mem_cons_self) with rfl | hb
          · rfl
          · exact Score.before_antisymm (hfirst b hb) (hfirst' a ha)
      -- They are the first ones with this score in their lists, so they are the same.
      have hhead : a = b ∧ as.filter (score a = score ·) = bs.filter (score a = score ·) := by
        have h := hties a
        simpa only [List.filter_cons, hab, decide_true, if_true, List.cons.injEq] using h
      obtain ⟨rfl, -⟩ := hhead
      have htail : as = bs := by
        -- Without them the elements of each score are still in the same order.
        apply ih hrest hrest' hperm.cons_inv
        intro c
        have h := hties c
        rw [List.filter_cons, List.filter_cons] at h
        split at h
        · exact (List.cons.inj h).2
        · exact h
      rw [htail]

end Sorted

/-- An alternative may stand before another as their scores say. -/
abbrev ranksBefore (p : Producers) (a b : KeyedRecipe) : Prop :=
  (scoreOf p a.recipe).before (scoreOf p b.recipe) = true

instance : Std.Total (ranksBefore p) :=
  ⟨fun a b => Score.before_total (scoreOf p a.recipe) (scoreOf p b.recipe)⟩

instance : IsTrans KeyedRecipe (ranksBefore p) :=
  ⟨fun _ _ _ hab hbc => Score.before_trans hab hbc⟩

theorem rank_eq_insertionSort (as : List Alternative) :
    rank as = as.insertionSort fun a b => a.1.before b.1 = true := by
  have hplace : ∀ a bs,
      place a bs = List.orderedInsert (fun a b => a.1.before b.1 = true) a bs := by
    intro a bs
    induction bs with
    | nil => rfl
    | cons b bs ih => rw [place, List.orderedInsert_cons, ih]
  induction as with
  | nil => rfl
  | cons a as ih => rw [rank, List.foldr_cons, ← rank, ih, hplace, List.insertionSort_cons]

/-- The alternatives for a material are the recipes for it, each with its score, sorted. -/
theorem alternatives_eq (p : Producers) (m : Material) :
    alternatives p m =
      ((p.keyed m).insertionSort (ranksBefore p)).map fun k => (scoreOf p k.recipe, k) := by
  rw [alternatives, rank_eq_insertionSort]
  let scored := fun k : KeyedRecipe => (scoreOf p k.recipe, k)
  exact (List.map_insertionSort (ranksBefore p) _ scored _ fun _ _ _ _ => Iff.rfl).symm

/-- Recipes that are equally good keep their order when they are sorted. -/
theorem filter_insertionSort (given : List KeyedRecipe) (r : Recipe) :
    (given.insertionSort (ranksBefore p)).filter (Tied p r ·.recipe) =
      given.filter (Tied p r ·.recipe) := by
  -- Those that are tied are a sorted part of the list, which sorting leaves as it is.
  have hsorted : (given.filter (Tied p r ·.recipe)).Pairwise (ranksBefore p) := by
    rw [List.pairwise_filter]
    apply List.pairwise_of_forall
    intro a b ha hb
    rw [decide_eq_true_eq, tied_iff] at ha hb
    rw [ranksBefore, ← ha, ← hb]
    exact or_self_iff.1 (Score.before_total _ _)
  have hkept := (List.sublist_insertionSort hsorted List.filter_sublist).filter (Tied p r ·.recipe)
  simp only [List.filter_filter, Bool.and_self] at hkept
  apply Eq.symm
  apply hkept.eq_of_length
  exact ((List.perm_insertionSort _ given).filter _).length_eq.symm

/-- Sorting by the scores gives the only ranking of some recipes. -/
theorem isRanking_iff {given ks : List KeyedRecipe} :
    IsRanking p given ks ↔ ks = given.insertionSort (ranksBefore p) := by
  have hranked : IsRanking p given (given.insertionSort (ranksBefore p)) := by
    refine ⟨List.perm_insertionSort _ given, ?_, filter_insertionSort given⟩
    apply (List.pairwise_insertionSort (ranksBefore p) given).imp
    intro a b hab
    exact (before_scoreOf_iff a.recipe b.recipe).1 hab
  constructor
  · intro hks
    apply eq_of_sorted_of_filter fun k => scoreOf p k.recipe
    · exact hks.sorted.imp fun h => (before_scoreOf_iff _ _).2 h
    · exact hranked.sorted.imp fun h => (before_scoreOf_iff _ _).2 h
    · exact hks.perm.trans hranked.perm.symm
    · intro c
      have h := (hks.ties c.recipe).trans (hranked.ties c.recipe).symm
      simpa only [tied_iff] using h
  · rintro rfl
    exact hranked

/-! ## The branches of a node -/

/-- At a node that does not end, the recipes for its material have one ranking. The first of them
are the branches with their keys, as many as the limits allow, and the others are counted. Below a
branch there is one node for each identifier that its recipe needs, in the order in which the recipe
mentions them first. -/
theorem branches_of_nodeAt {m : Material} {limits : Limits} {above : List Material}
    {e : Expansion} (h : NodeAt (ofMaterial p m limits) above e) (hstop : e.stop = none) :
    ∃ ranked, (∀ ks, IsRanking p (p.keyed e.material) ks ↔ ks = ranked) ∧
      e.branches.map (fun b => KeyedRecipe.mk b.key b.recipe) = ranked.take limits.width ∧
      e.branches.length + e.more = (p.keyed e.material).length ∧
      ∀ b ∈ e.branches,
        b.needs.map (fun need => need.material.id) = (b.recipe.needs.map Stack.id).eraseDups := by
  -- A node is grown by the same rule as the root, so one rule is all there is to look at.
  have hgrown := h
  rw [ofMaterial_eq_growTo] at hgrown
  obtain ⟨n, -, he⟩ := eq_growTo_of_nodeAt hgrown
  obtain ⟨s, hnode⟩ | ⟨k, -, -, -, hnode⟩ := growTo_cases p limits.width n _ e.material
  · rw [he, hnode] at hstop
    cases hstop
  rw [← he] at hnode
  refine ⟨_, fun ks => isRanking_iff, ?_, ?_, ?_⟩
  · rw [hnode, branches, material, alternatives_eq, List.map_map, ← List.map_take, List.map_map]
    apply List.map_id
  · have hlength : (alternatives p e.material).length = (p.keyed e.material).length := by
      rw [alternatives_eq, List.length_map, List.length_insertionSort]
    rw [hnode, branches, more, material, List.length_map, List.length_take, hlength]
    omega
  · intro b hb
    obtain ⟨-, -, hneeds⟩ := branch_of_nodeAt h hb
    have hids : b.needs.map (fun need => need.material.id) =
        b.recipe.distinctNeeds.map Material.id := by
      rw [← hneeds, List.map_map]
      rfl
    rw [hids, Recipe.distinctNeeds, map_firstSeen, List.map_map]
    rfl

/-- Ingots are made of blocks or smelted from ore. The first of the two ways needs what is made of
ingots, so with one branch for each node it is the second that is listed. -/
theorem branches_of_nodeAt_ingot :
    let p := Producers.ofList Samples.iron
    ∃ above e,
      NodeAt (ofMaterial p (Material.ofItemId "minecraft:iron_pickaxe") ⟨2, 1⟩) above e ∧
      e.stop = none ∧ e.material.id = "minecraft:iron_ingot" ∧
      (p.keyed e.material).map (·.key) = ["crafting_shapeless", "smelting"] ∧
      e.branches.map Branch.key = ["smelting"] ∧
      ∃ ranked, (∀ ks, IsRanking p (p.keyed e.material) ks ↔ ks = ranked) ∧
        e.branches.map (fun b => KeyedRecipe.mk b.key b.recipe) = ranked.take 1 ∧
        e.branches.length + e.more = (p.keyed e.material).length ∧
        ∀ b ∈ e.branches,
          b.needs.map (fun need => need.material.id) =
            (b.recipe.needs.map Stack.id).eraseDups := by
  intro p
  let root := ofMaterial p (Material.ofItemId "minecraft:iron_pickaxe") ⟨2, 1⟩
  obtain ⟨b, hb, e, he, hstop, hid, hkeyed, hkeys⟩ :
      ∃ b ∈ root.branches, ∃ e ∈ b.needs, e.stop = none ∧
        e.material.id = "minecraft:iron_ingot" ∧
        (p.keyed e.material).map (·.key) = ["crafting_shapeless", "smelting"] ∧
        e.branches.map Branch.key = ["smelting"] := by
    decide +kernel
  have hnode : NodeAt root [root.material] e := .need .root hb he
  exact ⟨_, e, hnode, hstop, hid, hkeyed, hkeys, branches_of_nodeAt hnode hstop⟩

end Expansion

end RecipePlanner

import RecipePlanner.Producers

/-!
# Positions in the table of producers

Every position in the table of producers is that of a recipe (`inRange_ofList`). It holds of no
recipes at all, and adding one keeps it: the position that is noted is the one the new recipe takes.
So no position is lost on the way to the recipes: there are as many recipes for a material as
positions (`length_keyed`), and none exactly for a base material (`keyed_eq_nil_iff`).
-/

namespace RecipePlanner.Producers

/-- All positions in a table are below `n`. -/
def AllBelow (n : Nat) (byItem : List (String × List Nat)) : Prop :=
  ∀ id, ∀ i ∈ (byItem.lookup id).getD [], i < n

/-- All positions in the table are those of recipes. -/
def InRange (p : Producers) : Prop := AllBelow p.size p.byItem

theorem AllBelow.mono {m n : Nat} {byItem : List (String × List Nat)} (h : AllBelow m byItem)
    (hmn : m ≤ n) : AllBelow n byItem :=
  fun id i hi => Nat.lt_of_lt_of_le (h id i hi) hmn

theorem mem_addPosition {position i : Nat} {positions : List Nat}
    (h : i ∈ addPosition position positions) : i ∈ positions ∨ i = position := by
  rw [addPosition] at h
  split at h
  · exact Or.inl h
  · rcases List.mem_append.1 h with h | h
    · exact Or.inl h
    · exact Or.inr (List.mem_singleton.1 h)

/-- Noting a position below `n` keeps the table below `n`. -/
theorem allBelow_note {n position : Nat} {byItem : List (String × List Nat)}
    (h : AllBelow n byItem) (hp : position < n) (m : Material) :
    AllBelow n (note position byItem m) := by
  rw [note]
  split
  · exact h
  · intro id i hi
    rw [Keyed.lookup_alter] at hi
    split at hi
    · rcases mem_addPosition hi with hi | rfl
      · exact h m.id i hi
      · exact hp
    · exact h id i hi

theorem allBelow_foldl_note {n position : Nat} (hp : position < n) (ms : List Material)
    {byItem : List (String × List Nat)} (h : AllBelow n byItem) :
    AllBelow n (ms.foldl (note position) byItem) := by
  induction ms generalizing byItem with
  | nil => exact h
  | cons m ms ih => exact ih (allBelow_note h hp m)

theorem inRange_empty : InRange empty := by
  intro id i hi
  cases hi

/-- Adding a recipe keeps all positions those of recipes. -/
theorem inRange_insert {p : Producers} (hp : InRange p) {r : Recipe} (h : r.isProductive = true) :
    InRange (p.insert r) := by
  rw [insert_of_productive h]
  have hsize : p.recipes.size < (p.recipes.push r).size := by
    rw [Array.size_push]
    exact Nat.lt_succ_self _
  exact allBelow_foldl_note hsize _ (hp.mono (Nat.le_of_lt hsize))

theorem inRange_ofList (rs : List Recipe) : InRange (ofList rs) :=
  ofList_induction (P := fun _ p => p.InRange) (fun _ _ _ h hp => inRange_insert hp h)
    inRange_empty rs

/-- What is no tag stands for itself. -/
theorem members_of_not_isTag {p : Producers} {m : Material} (h : m.isTag = false) :
    p.members m = [m.id] := by
  cases m with
  | item i => rfl
  | tag t => cases h

/-- A tag stands for its members if no better form of it is known. -/
theorem members_of_lookup_eq {p : Producers} {t : Tag} (h : p.lookup t.id = .tag t) :
    p.members (.tag t) = t.members.map (·.id) := by
  rw [members]
  split
  · rw [h]
    rfl
  · rfl

/-- A position is one for a material if it is one for an item that the material stands for. -/
theorem mem_positions_iff {p : Producers} {m : Material} {i : Nat} :
    i ∈ p.positions m ↔ ∃ item ∈ p.members m, i ∈ p.positionsOf item := by
  cases m with
  | item item =>
    rw [positions, members]
    simp only [List.mem_singleton, exists_eq_left]
  | tag t => rw [positions, mem_firstSeen_id, List.mem_flatMap]

/-- There is no position for a material if there is none for any of its items. -/
theorem positions_eq_nil_iff {p : Producers} {m : Material} :
    p.positions m = [] ↔ ∀ item ∈ p.members m, p.positionsOf item = [] := by
  simp only [List.eq_nil_iff_forall_not_mem, mem_positions_iff, not_exists, not_and]
  exact ⟨fun h item hitem i => h i item hitem, fun h i item hitem => h item hitem i⟩

/-- A tag has each position once, even if several of its members have it. -/
theorem nodup_positions_tag (p : Producers) (t : Tag) : (p.positions (.tag t)).Nodup :=
  nodup_firstSeen_id

/-- The positions for a material are those of recipes. -/
theorem lt_size_of_mem_positions {p : Producers} (h : InRange p) {m : Material} {i : Nat}
    (hi : i ∈ p.positions m) : i < p.recipes.size := by
  obtain ⟨item, -, hitem⟩ := mem_positions_iff.1 hi
  exact h item i hitem

/-- The recipes for a material are those at its positions, one for one. -/
theorem map_some_producing {p : Producers} (h : InRange p) (m : Material) :
    (p.producing m).map some = (p.positions m).map fun i => p.recipes[i]? := by
  -- Looking up a position drops it only if no recipe has it.
  have hall : ∀ found ∈ (p.positions m).map fun i => p.recipes[i]?, found.isSome = true := by
    intro found hfound
    obtain ⟨i, hi, rfl⟩ := List.mem_map.1 hfound
    rw [Array.getElem?_eq_getElem (lt_size_of_mem_positions h hi)]
    rfl
  rw [producing, List.map_filterMap_some_eq_filter_map_isSome, List.filter_eq_self.2 hall]

theorem length_producing {p : Producers} (h : InRange p) (m : Material) :
    (p.producing m).length = (p.positions m).length := by
  have hlength := congrArg List.length (map_some_producing h m)
  rwa [List.length_map, List.length_map] at hlength

theorem producing_eq_nil_iff {p : Producers} (h : InRange p) (m : Material) :
    p.producing m = [] ↔ p.positions m = [] := by
  rw [← List.length_eq_zero_iff, length_producing h, List.length_eq_zero_iff]

/-- A base material is one without recipes. -/
theorem isBase_iff_producing {p : Producers} (h : InRange p) (m : Material) :
    p.isBase m = true ↔ p.producing m = [] := by
  rw [producing_eq_nil_iff h, isBase, List.isEmpty_iff]

/-- The recipes for a material are among those of the producers. -/
theorem mem_recipes_of_mem_producing {p : Producers} {m : Material} {r : Recipe}
    (h : r ∈ p.producing m) : r ∈ p.recipes := by
  obtain ⟨i, -, hr⟩ := List.mem_filterMap.1 h
  exact Array.mem_of_getElem? hr

theorem keyed_eq_map_zip (p : Producers) (m : Material) :
    p.keyed m = ((BranchKey.assign (p.producing m)).zip (p.producing m)).map
      (Function.uncurry KeyedRecipe.mk) := by
  rw [List.map_uncurry_zip_eq_zipWith]
  rfl

/-- The alternatives for a material have the keys assigned to the recipes for it. -/
theorem map_key_keyed (p : Producers) (m : Material) :
    (p.keyed m).map (·.key) = BranchKey.assign (p.producing m) := by
  rw [keyed_eq_map_zip, List.map_map]
  exact List.map_fst_zip (Nat.le_of_eq (BranchKey.length_assign _))

/-- The alternatives for a material are the recipes for it. -/
theorem map_recipe_keyed (p : Producers) (m : Material) :
    (p.keyed m).map (·.recipe) = p.producing m := by
  rw [keyed_eq_map_zip, List.map_map]
  exact List.map_snd_zip (Nat.le_of_eq (BranchKey.length_assign _).symm)

/-- An alternative for a material is a recipe for it with one of the keys assigned to these. -/
theorem mem_of_mem_keyed {p : Producers} {m : Material} {k : KeyedRecipe} (h : k ∈ p.keyed m) :
    k.key ∈ BranchKey.assign (p.producing m) ∧ k.recipe ∈ p.producing m := by
  rw [← map_key_keyed, ← map_recipe_keyed]
  exact ⟨List.mem_map_of_mem h, List.mem_map_of_mem h⟩

/-- The key of an alternative is never empty. -/
theorem key_ne_empty_of_mem_keyed {p : Producers} {m : Material} {k : KeyedRecipe}
    (h : k ∈ p.keyed m) : k.key ≠ "" :=
  BranchKey.ne_empty_of_mem_assign (mem_of_mem_keyed h).1

/-- There are as many alternatives for a material as positions. -/
theorem length_keyed {p : Producers} (h : InRange p) (m : Material) :
    (p.keyed m).length = (p.positions m).length := by
  rw [← length_producing h, ← map_recipe_keyed, List.length_map]

/-- A material has no alternatives exactly if no recipe yields it. -/
theorem keyed_eq_nil_iff {p : Producers} (h : InRange p) (m : Material) :
    p.keyed m = [] ↔ p.isBase m = true := by
  rw [← List.length_eq_zero_iff, length_keyed h, List.length_eq_zero_iff, isBase,
    List.isEmpty_iff]

end RecipePlanner.Producers

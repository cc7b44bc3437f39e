import RecipePlanner.Proofs.InTurn
import RecipePlanner.Proofs.Producers.Known
import RecipePlanner.Proofs.Producers.Positions

/-!
# Looking up is filtering

The table of positions is filled entry by entry, yet what is found in it for a material is what a
plain filter of all recipes finds (`recipes_keyed_ofList`): the productive recipes that make one of
the items the material stands for. Each recipe that is added appends its position under exactly the
items that it makes, once however often it lists them (`positionsOf_insert`), so under an item stand
the places of the recipes that make it (`positionsOf_ofList`). For a tag the items are asked in turn
and a recipe that makes several of them is kept where it is met first. An item has each recipe once
already, so the same can be said of it (`positions_ofList`).
-/

namespace RecipePlanner

/-- Whether a recipe makes the item with this identifier. A tag that it lists makes nothing. -/
def Recipe.makes (item : String) (r : Recipe) : Bool :=
  r.yields.any fun s => !s.material.isTag && s.id = item

namespace Producers

/-! ## Noting positions -/

theorem addPosition_addPosition (position : Nat) (positions : List Nat) :
    addPosition position (addPosition position positions) = addPosition position positions := by
  have hlast : (addPosition position positions).getLast? = some position := by
    rw [addPosition]
    split
    · next h => exact h
    · exact List.getLast?_concat
  rw [addPosition, if_pos hlast]

/-- Noting a material adds the position under its identifier, unless it is a tag. -/
theorem lookup_note (position : Nat) (byItem : List (String × List Nat)) (m : Material)
    (item : String) :
    ((note position byItem m).lookup item).getD [] =
      if !m.isTag && m.id = item then addPosition position ((byItem.lookup item).getD [])
      else (byItem.lookup item).getD [] := by
  rw [note]
  cases m.isTag with
  | true => simp
  | false =>
    rw [if_neg Bool.false_ne_true, Keyed.lookup_alter]
    by_cases hid : item = m.id
    · subst hid
      simp
    · simp [hid, Ne.symm hid]

/-- However often the materials mention an item, its position is added once. -/
theorem lookup_foldl_note (position : Nat) (ms : List Material)
    (byItem : List (String × List Nat)) (item : String) :
    ((ms.foldl (note position) byItem).lookup item).getD [] =
      if ms.any fun m => !m.isTag && m.id = item then
        addPosition position ((byItem.lookup item).getD [])
      else (byItem.lookup item).getD [] := by
  induction ms generalizing byItem with
  | nil => simp
  | cons m ms ih =>
    rw [List.foldl_cons, ih, lookup_note, List.any_cons]
    cases !m.isTag && decide (m.id = item) with
    | true => simp [addPosition_addPosition]
    | false => simp

/-! ## Positions of an item -/

/-- A productive recipe that is added takes the next position under the items it makes. -/
theorem positionsOf_insert {p : Producers} (hp : p.InRange) {r : Recipe}
    (h : r.isProductive = true) (item : String) :
    (p.insert r).positionsOf item =
      if r.makes item then p.positionsOf item ++ [p.size] else p.positionsOf item := by
  -- All positions so far are smaller, so the new one is not the last of them.
  have hlast : (p.positionsOf item).getLast? ≠ some p.size := by
    intro hlast
    exact Nat.lt_irrefl _ (hp item _ (List.mem_of_getLast? hlast))
  have hnew : addPosition p.size (p.positionsOf item) = p.positionsOf item ++ [p.size] :=
    if_neg hlast
  rw [insert_of_productive h, positionsOf, lookup_foldl_note, List.any_map, ← hnew]
  rfl

/-- Under an item stand the places of the productive recipes that make it, in order. -/
theorem positionsOf_ofList (rs : List Recipe) (item : String) :
    (ofList rs).positionsOf item = places (Recipe.makes item) (rs.filter (·.isProductive)) := by
  have hall : (ofList rs).InRange ∧ (ofList rs).recipes.toList = rs.filter (·.isProductive) ∧
      (ofList rs).positionsOf item = places (Recipe.makes item) (rs.filter (·.isProductive)) := by
    refine ofList_induction (P := fun rs p => p.InRange ∧ p.recipes.toList = rs ∧
      p.positionsOf item = places (Recipe.makes item) rs) ?_ ⟨inRange_empty, rfl, rfl⟩ rs
    rintro rs p r h ⟨hp, hrecipes, ih⟩
    refine ⟨inRange_insert hp h, ?_, ?_⟩
    · rw [insert_of_productive h, Array.toList_push, hrecipes]
    · rw [positionsOf_insert hp h, places_append_singleton, ih, ← hrecipes, Array.length_toList]
      rfl
  exact hall.2.2

/-- The positions of an item need no clearing of repetitions, so for items and tags alike they are
the first mentions among the positions of what the material stands for. -/
theorem positions_ofList (rs : List Recipe) (m : Material) :
    (ofList rs).positions m =
      firstSeen id (((ofList rs).members m).flatMap (ofList rs).positionsOf) := by
  cases m with
  | item i =>
    have hnodup : ((ofList rs).positionsOf i.id).Nodup := by
      rw [positionsOf_ofList]
      exact List.nodup_range.filter _
    rw [positions, members, List.flatMap_singleton, firstSeen_id_of_nodup hnodup]
  | tag t => rfl

/-- No entry of the table holds a position that no recipe has. -/
theorem lt_size_of_mem_byItem_ofList {rs : List Recipe} {entry : String × List Nat}
    (hentry : entry ∈ (ofList rs).byItem) {i : Nat} (hi : i ∈ entry.2) : i < (ofList rs).size := by
  apply inRange_ofList rs entry.1
  rw [Keyed.lookup_eq_some_of_mem (nodup_byItem_ofList rs) hentry]
  exact hi

/-! ## Recipes for a material -/

/-- The recipes for a material are the productive ones that make its items, item by item. -/
theorem producing_ofList (rs : List Recipe) (m : Material) :
    (ofList rs).producing m =
      inTurn Recipe.makes ((ofList rs).members m) (rs.filter (·.isProductive)) := by
  have hrecipes : ∀ i : Nat, (ofList rs).recipes[i]? = (rs.filter (·.isProductive))[i]? := by
    intro i
    rw [← toList_recipes_ofList, Array.getElem?_toList]
  have hitems : (ofList rs).positionsOf =
      fun item => places (Recipe.makes item) (rs.filter (·.isProductive)) := by
    funext item
    exact positionsOf_ofList rs item
  -- Recipes are looked up by position, so the two lists are compared as lists of what is found.
  apply List.map_injective_iff.2 (fun _ _ => Option.some.inj)
  rw [map_some_producing (inRange_ofList rs), positions_ofList, hitems, ← firstSeen_flatMap_places]
  simp only [hrecipes]

/-- The alternatives for a material are the productive recipes that make one of its items, each as
often as it is given: first those that make the first item, then of the others those that make the
second, and so on, each time in the order in which they are given. A material is a base material
exactly if there are none, and every position in the table is that of a productive recipe. -/
theorem recipes_keyed_ofList (rs : List Recipe) (m : Material) :
    let p := ofList rs
    (p.keyed m).map (·.recipe) =
      inTurn Recipe.makes (p.members m) (rs.filter (·.isProductive)) ∧
    ((p.keyed m).map (·.recipe)).Perm
      (rs.filter fun r => r.isProductive && (p.members m).any (r.makes ·)) ∧
    (p.isBase m = true ↔ p.keyed m = []) ∧
    p.recipes.toList = rs.filter (·.isProductive) ∧
    ∀ entry ∈ p.byItem, ∀ i ∈ entry.2, i < p.recipes.size := by
  intro p
  have hkeyed : (p.keyed m).map (·.recipe) =
      inTurn Recipe.makes (p.members m) (rs.filter (·.isProductive)) := by
    rw [map_recipe_keyed, producing_ofList]
  refine ⟨hkeyed, ?_, (keyed_eq_nil_iff (inRange_ofList rs) m).symm, toList_recipes_ofList rs, ?_⟩
  · rw [hkeyed]
    apply (inTurn_perm _ _ _).trans
    rw [List.filter_filter]
    apply List.Perm.of_eq
    apply List.filter_congr
    intro r _
    exact Bool.and_comm _ _
  · intro entry hentry i hi
    exact lt_size_of_mem_byItem_ofList hentry hi

end Producers

end RecipePlanner

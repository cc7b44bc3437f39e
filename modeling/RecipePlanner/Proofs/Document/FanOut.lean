import RecipePlanner.Proofs.Document.Alternatives
import RecipePlanner.Proofs.Document.Ingredients
import RecipePlanner.Proofs.Document.Picks

/-!
# Fanning out

A document whose fields are in order stands for one recipe per way to take an alternative of each
ingredient. If there are too many of them, that is the fault. Otherwise the recipes come in the
lexicographic order of the places at which the alternatives stand, no two of them need the same
(`recipes_eq_combinations`).
-/

namespace RecipePlanner.Document

/-- The number of ways to take one alternative of each ingredient. -/
def combinationCount (es : List Ingredient) : Nat := (es.map (·.names.length)).prod

/-- What an ingredient comes to with the alternative at one place: the material and the units of
it. -/
def Ingredient.needAt (e : Ingredient) (i : Nat) : Material × Nat :=
  (Material.parse (e.names.getD i ""), e.units)

/-- What a recipe needs, stack by stack, with the units. -/
def neededStacks (r : Recipe) : List (Material × Nat) :=
  r.needs.map fun s => (s.material, s.amount.count)

section FanOut

variable {method : Method} {filename : String} {product : Stack} {slots : List Slot}
variable {es : List Ingredient}

/-- The recipe for one choice of names. -/
def chosenRecipe (method : Method) (filename : String) (slots : List Slot) (product : Stack)
    (names : List String) : Recipe :=
  { method, filename
    needs := names.zipWith (fun name slot => ⟨Material.parse name, slot.amount⟩) slots
    yields := [product] }

theorem fanOut_eq_map (method : Method) (filename : String) (slots : List Slot) (product : Stack) :
    fanOut method filename slots product =
      (combinations (slots.map (·.names))).map
        (List.map (chosenRecipe method filename slots product)) :=
  rfl

/-- The lists of alternatives in the slots of ingredients. -/
theorem map_names_slot (es : List Ingredient) :
    (es.map Ingredient.slot).map (·.names) = es.map Ingredient.names := by
  rw [List.map_map]
  rfl

theorem length_names (es : List Ingredient) :
    ((es.map Ingredient.names).map List.length).prod = combinationCount es := by
  rw [List.map_map]
  rfl

section Named

variable (hnamed : ∀ e ∈ es, e.names ≠ [])

include hnamed

theorem filled_names : ∀ names ∈ es.map Ingredient.names, names ≠ [] := by
  intro names h
  obtain ⟨e, he, rfl⟩ := List.mem_map.1 h
  exact hnamed e he

theorem combinationCount_pos : 0 < combinationCount es := by
  rw [← length_names]
  exact List.prod_pos_iff_forall_pos_nat.2 (length_pos_of_filled (filled_names hnamed))

theorem fanOut_eq_error_iff :
    (∃ count, fanOut method filename (es.map Ingredient.slot) product =
        .error (.tooManyCombinations count)) ↔ maxCombinations < combinationCount es := by
  rw [← length_names, ← combinations_eq_error_iff (filled_names hnamed), fanOut_eq_map,
    map_names_slot]
  cases combinations (es.map Ingredient.names) <;>
    simp only [Except.map, Except.error.injEq, reduceCtorEq, exists_false]

/-- What is fanned out is the recipes of all choices. -/
theorem fanOut_eq_ok_iff {rs : List Recipe} :
    fanOut method filename (es.map Ingredient.slot) product = .ok rs ↔
      combinationCount es ≤ maxCombinations ∧
        (picks (es.map Ingredient.names)).map
          (chosenRecipe method filename (es.map Ingredient.slot) product) = rs := by
  rw [fanOut_eq_map, map_names_slot, Outcome.map_eq_ok_iff, ← length_names]
  simp only [combinations_eq_ok_iff (filled_names hnamed), and_assoc, exists_and_left,
    exists_eq_left']

end Named

/-- The identifiers of what is needed are the names that were chosen. -/
theorem map_id_needs_chosenRecipe {names : List String}
    (h : List.Forall₂ (· ∈ ·) names (es.map Ingredient.names)) :
    (chosenRecipe method filename (es.map Ingredient.slot) product names).needs.map Stack.id =
      names := by
  rw [chosenRecipe]
  dsimp only
  induction es generalizing names with
  | nil =>
    cases h
    rfl
  | cons e es ih =>
    rw [List.map_cons, List.forall₂_cons_right_iff] at h
    obtain ⟨name, rest, hname, hrest, rfl⟩ := h
    rw [List.map_cons, List.zipWith_cons_cons, List.map_cons, ih hrest, Stack.id,
      id_parse_of_mem_alternatives hname]

/-- Whatever is chosen, the amounts are those of the ingredients. -/
theorem map_amount_needs_chosenRecipe {names : List String} (h : names.length = es.length) :
    (chosenRecipe method filename (es.map Ingredient.slot) product names).needs.map Stack.amount =
      es.map fun e => Amount.clamp e.units := by
  rw [chosenRecipe]
  dsimp only
  induction es generalizing names with
  | nil =>
    cases List.length_eq_zero_iff.1 h
    rfl
  | cons e es ih =>
    cases names with
    | nil => cases h
    | cons name names =>
      rw [List.map_cons, List.zipWith_cons_cons, List.map_cons, ih (Nat.succ.inj h), List.map_cons,
        Ingredient.slot]

theorem count_slot {e : Ingredient} (h : e.units ≤ Word.max32) : e.slot.amount.count = e.units := by
  rw [Ingredient.slot, Amount.count_clamp, Nat.min_eq_left h]

theorem neededStacks_chosenRecipe (hunits : ∀ e ∈ es, e.units ≤ Word.max32) (place : List Nat) :
    neededStacks (chosenRecipe method filename (es.map Ingredient.slot) product
        ((es.map Ingredient.names).zipWith (fun names i => names.getD i "") place)) =
      es.zipWith Ingredient.needAt place := by
  rw [neededStacks, chosenRecipe]
  dsimp only
  induction es generalizing place with
  | nil => rfl
  | cons e es ih =>
    obtain ⟨he, hes⟩ := List.forall_mem_cons.1 hunits
    cases place with
    | nil => rfl
    | cons i place =>
      rw [List.map_cons, List.map_cons, List.zipWith_cons_cons, List.zipWith_cons_cons,
        List.map_cons, ih hes, List.zipWith_cons_cons]
      dsimp only
      rw [count_slot he, Ingredient.needAt]

/-- No two choices come to the same identifiers. -/
theorem nodup_needs_chosenRecipe :
    (((picks (es.map Ingredient.names)).map
      (chosenRecipe method filename (es.map Ingredient.slot) product)).map
        fun r => r.needs.map Stack.id).Nodup := by
  -- Recipes can be told apart by what was chosen for them.
  have hids : ((picks (es.map Ingredient.names)).map
      (chosenRecipe method filename (es.map Ingredient.slot) product)).map
        (fun r => r.needs.map Stack.id) = picks (es.map Ingredient.names) := by
    rw [List.map_map]
    refine (List.map_congr_left fun names hnames => ?_).trans (List.map_id _)
    exact map_id_needs_chosenRecipe (mem_picks_iff.1 hnames)
  rw [hids]
  refine nodup_picks fun names h => ?_
  obtain ⟨e, -, rfl⟩ := List.mem_map.1 h
  exact nodup_alternatives e.choice

end FanOut

/-- What a text gives is one mark, or it is the recipes of all choices of alternatives for the
ingredients of a document. -/
theorem readOrMark_cases (text filename : String) :
    readOrMark text filename = [Recipe.unreadable filename] ∨
      readOrMark text filename = [Recipe.cosmetic filename] ∨
      ∃ doc type method es product, Json.parse? text = some doc ∧
        (doc.field? "type").bind Json.text? = some type ∧
        (Layout.ofType type).method? = some method ∧ Legible doc (Layout.ofType type) es ∧
        productStack doc = .ok product ∧ combinationCount es ≤ maxCombinations ∧
        readOrMark text filename = (picks (es.map Ingredient.names)).map
          (chosenRecipe method filename (es.map Ingredient.slot) product) := by
  rw [readOrMark]
  cases hread : readRecipes text filename with
  | error fault => exact Or.inl rfl
  | ok rs =>
    rw [readRecipes] at hread
    split at hread
    · cases hread
    · next doc hdoc =>
      rcases recipes_cases hread with
        rfl | rfl | ⟨type, method, es, product, htype, hmethod, hes, hproduct, hrs⟩
      · exact Or.inl rfl
      · exact Or.inr (Or.inl rfl)
      · obtain ⟨hcount, hrs⟩ := (fanOut_eq_ok_iff hes.named).1 hrs
        exact Or.inr (Or.inr ⟨doc, type, method, es, product, hdoc, htype, hmethod, hes, hproduct,
          hcount, hrs.symm⟩)

/-- A document whose fields are in order, each of whose ingredients asks for units that an amount can
hold, has too many combinations exactly if the product of the numbers of alternatives exceeds the
limit. If it does not, the document stands for that many recipes, one per list of places, one place
for each ingredient, in lexicographic order. Each recipe needs the alternatives at its places, in the
order of the ingredients and with their units, and no two recipes need the same. -/
theorem recipes_eq_combinations {doc : Json} {type filename : String} {method : Method}
    {es : List Ingredient} {product : Stack}
    (htype : (doc.field? "type").bind Json.text? = some type)
    (hmethod : (Layout.ofType type).method? = some method)
    (hes : Legible doc (Layout.ofType type) es) (hunits : ∀ e ∈ es, e.units ≤ Word.max32)
    (hproduct : productStack doc = .ok product) :
    ((∃ count, recipes doc filename = .error (.tooManyCombinations count)) ↔
      maxCombinations < combinationCount es) ∧
    (combinationCount es ≤ maxCombinations →
      ∃ rs, ∃ choices : List (List Nat),
        recipes doc filename = .ok rs ∧ rs.length = combinationCount es ∧
        choices.Pairwise (· < ·) ∧
        (∀ place, place ∈ choices ↔ List.Forall₂ (· < ·) place (es.map (·.names.length))) ∧
        rs.map neededStacks = choices.map (es.zipWith Ingredient.needAt) ∧
        (∀ r ∈ rs, r.method = method ∧ r.filename = filename ∧ r.yields = [product]) ∧
        (rs.map fun r => r.needs.map Stack.id).Nodup) := by
  have hplaces : (es.map Ingredient.names).map List.length = es.map (·.names.length) := by
    rw [List.map_map]
    rfl
  rw [recipes_eq_fanOut htype hmethod hes hproduct]
  refine ⟨fanOut_eq_error_iff hes.named, fun hcount => ?_⟩
  refine ⟨_, places (es.map (·.names.length)), (fanOut_eq_ok_iff hes.named).2 ⟨hcount, rfl⟩, ?_,
    pairwise_lt_places _, fun _ => mem_places_iff, ?_, ?_, nodup_needs_chosenRecipe⟩
  · rw [List.length_map, length_picks_eq_prod, length_names]
  · rw [picks_eq_map_places "", List.map_map, List.map_map, hplaces]
    exact List.map_congr_left fun place _ => neededStacks_chosenRecipe hunits place
  · intro r hr
    obtain ⟨names, -, rfl⟩ := List.mem_map.1 hr
    exact ⟨rfl, rfl, rfl⟩

/-- Two sticks, of which there is one kind, and coal or charcoal: two recipes for torches. -/
theorem recipes_eq_combinations_torch :
    let doc := Json.object [("type", .text "minecraft:crafting_shaped"),
      ("pattern", .list [.text "# #", .text " X "]),
      ("key", .object [("#", .text "stick"), ("X", .list [.text "coal", .text "charcoal"])]),
      ("result", .object [("id", .text "torch"), ("count", .ofNat 4)])]
    let es := [Ingredient.mk (.text "stick") 2,
      Ingredient.mk (.list [.text "coal", .text "charcoal"]) 1]
    Legible doc .shaped es ∧ combinationCount es = 2 ∧
      ∃ rs, recipes doc "torch.json" = .ok rs ∧ rs.length = 2 ∧
        ∀ r ∈ rs, r.yields = [⟨Material.ofItemId "minecraft:torch", Amount.clamp 4⟩] := by
  intro doc es
  have htype : (doc.field? "type").bind Json.text? = some "minecraft:crafting_shaped" := by
    decide +kernel
  have hlayout : Layout.ofType "minecraft:crafting_shaped" = .shaped := by decide +kernel
  have hes : Legible doc .shaped es := ⟨rfl, List.cons_ne_nil _ _, by decide +kernel⟩
  have hcount : combinationCount es = 2 := by decide +kernel
  have hproduct : productStack doc =
      .ok ⟨Material.ofItemId "minecraft:torch", Amount.clamp 4⟩ := by
    decide +kernel
  obtain ⟨rs, _, hrs, hlength, -, -, -, hmade, -⟩ :=
    (recipes_eq_combinations htype (by rw [hlayout]; rfl)
      (by rwa [hlayout]) (by decide) hproduct).2 (by rw [hcount]; decide)
  exact ⟨hes, hcount, rs, hrs, hlength.trans hcount, fun r hr => (hmade r hr).2.2⟩

end RecipePlanner.Document

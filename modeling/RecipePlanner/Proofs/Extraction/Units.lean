import RecipePlanner.Proofs.Document.Asked
import RecipePlanner.Proofs.Document.FanOut
import RecipePlanner.Proofs.Extraction.Emitted

/-!
# Units from document to recipe

Every choice of alternatives needs all the units that its document asks for
(`fills_needs_chosenRecipe`), the catalogue changes none (`fills_attach`), and merging the stacks of
one material loses none (`fills_mergeStacks`). So the units of an emitted recipe are those that its
document asks for (`neededUnits_of_mem_extract`).

An amount that would pass the largest one is held there. What is kept through all steps is therefore
that the units come to the number asked for, unless it passes the largest amount and some stack is
full (`Fills`).
-/

namespace RecipePlanner.Extraction

open Document

/-! ## Stacks that come to a number of units -/

/-- The amounts of some stacks. -/
def counts (given : List Stack) : List Nat := given.map (·.amount.count)

/-- The units of some stacks. -/
def units (given : List Stack) : Nat := (counts given).sum

/-- One of the stacks has the largest amount. -/
def HasFull (given : List Stack) : Prop := Word.max32 ∈ counts given

/-- The stacks have `n` units, unless `n` passes the largest amount and one of them is full. -/
def Fills (n : Nat) (given : List Stack) : Prop := units given = n ∨ Word.max32 < n ∧ HasFull given

theorem units_cons (s : Stack) (given : List Stack) :
    units (s :: given) = s.amount.count + units given := by
  simp [units, counts]

theorem units_append (given more : List Stack) :
    units (given ++ more) = units given + units more := by
  simp [units, counts]

theorem hasFull_cons {s : Stack} {given : List Stack} :
    HasFull (s :: given) ↔ s.amount.count = Word.max32 ∨ HasFull given := by
  simp [HasFull, counts, eq_comm]

theorem hasFull_append {given more : List Stack} :
    HasFull (given ++ more) ↔ HasFull given ∨ HasFull more := by
  simp [HasFull, counts]

theorem neededUnits_eq_units (r : Recipe) : r.neededUnits = units r.needs := by
  rw [Recipe.neededUnits, units, counts, List.sum_eq_foldr, List.foldr_map]

/-! ## Merging -/

/-- Stacks with one more have its units more, unless the one it is added to gets full. -/
theorem units_mergeStack (held : List Stack) (s : Stack) :
    units (Recipe.mergeStack held s) = units held + s.amount.count ∨
      Word.max32 < units held + s.amount.count ∧ HasFull (Recipe.mergeStack held s) := by
  induction held with
  | nil => exact Or.inl (Nat.add_comm _ _)
  | cons t held ih =>
    rw [Recipe.mergeStack]
    split
    · -- The amounts are added up, or their sum is held at the largest amount.
      rw [units_cons, units_cons, hasFull_cons]
      dsimp only
      rw [Amount.count_add]
      omega
    · rw [units_cons, units_cons, hasFull_cons]
      rcases ih with h | ⟨hlarge, hfull⟩
      · exact Or.inl (by omega)
      · exact Or.inr ⟨by omega, Or.inr hfull⟩

/-- A full stack stays full, and one that is added stays in the stacks. -/
theorem hasFull_mergeStack {held : List Stack} {s : Stack} (h : HasFull (s :: held)) :
    HasFull (Recipe.mergeStack held s) := by
  induction held with
  | nil => exact h
  | cons t held ih =>
    rw [hasFull_cons, hasFull_cons] at h
    rw [Recipe.mergeStack]
    split
    · rw [hasFull_cons]
      dsimp only
      rw [Amount.count_add]
      rcases h with h | h | h
      · exact Or.inl (by omega)
      · exact Or.inl (by omega)
      · exact Or.inr h
    · rw [hasFull_cons]
      rcases h with h | h | h
      · exact Or.inr (ih (hasFull_cons.2 (Or.inl h)))
      · exact Or.inl h
      · exact Or.inr (ih (hasFull_cons.2 (Or.inr h)))

/-- One step of merging loses no unit, whatever is still to come. -/
theorem fills_mergeStack {n : Nat} {held rest : List Stack} {s : Stack}
    (h : Fills n (held ++ s :: rest)) : Fills n (Recipe.mergeStack held s ++ rest) := by
  rw [Fills, units_append, units_cons, hasFull_append, hasFull_cons] at h
  rw [Fills, units_append, hasFull_append]
  rcases h with hunits | ⟨hlarge, hfull⟩
  · rcases units_mergeStack held s with h | ⟨hlarge, hfull⟩
    · exact Or.inl (by omega)
    · exact Or.inr ⟨by omega, Or.inl hfull⟩
  · refine Or.inr ⟨hlarge, ?_⟩
    rcases hfull with h | h | h
    · exact Or.inl (hasFull_mergeStack (hasFull_cons.2 (Or.inr h)))
    · exact Or.inl (hasFull_mergeStack (hasFull_cons.2 (Or.inl h)))
    · exact Or.inr h

/-- Merging the stacks of one material loses no unit. -/
theorem fills_mergeStacks {n : Nat} {given : List Stack} (h : Fills n given) :
    Fills n (Recipe.mergeStacks given) := by
  -- The stacks merged so far, with those still to come, have the units all along.
  have hrun : ∀ held, Fills n (held ++ given) → Fills n (given.foldl Recipe.mergeStack held) := by
    clear h
    induction given with
    | nil =>
      intro held h
      rwa [List.append_nil] at h
    | cons s given ih =>
      intro held h
      exact ih _ (fills_mergeStack h)
  exact hrun [] h

/-! ## Catalogues -/

/-- A stack in the form that a catalogue gives its material. -/
def resolved (c : Catalogue) (s : Stack) : Stack := { s with material := c.resolve s.material }

/-- The catalogue changes materials, not amounts. -/
theorem counts_map_resolved (c : Catalogue) (given : List Stack) :
    counts (given.map (resolved c)) = counts given := by
  rw [counts, List.map_map, counts]
  rfl

theorem needs_attach (c : Catalogue) (r : Recipe) :
    (attach c r).needs = Recipe.mergeStacks (r.needs.map (resolved c)) := rfl

theorem fills_attach {c : Catalogue} {n : Nat} {r : Recipe} (h : Fills n r.needs) :
    Fills n (attach c r).needs := by
  rw [needs_attach]
  apply fills_mergeStacks
  rwa [Fills, units, HasFull, counts_map_resolved]

/-! ## Recipes -/

/-- Numbers held at the largest amount add up to their sum, unless it passes that amount. -/
theorem sum_min_cases (ns : List Nat) :
    (ns.map (min · Word.max32)).sum = ns.sum ∨
      Word.max32 < ns.sum ∧ Word.max32 ∈ ns.map (min · Word.max32) := by
  induction ns with
  | nil => exact Or.inl rfl
  | cons n ns ih =>
    rw [List.map_cons, List.sum_cons, List.sum_cons, List.mem_cons]
    rcases ih with h | ⟨hlarge, hfull⟩
    · omega
    · exact Or.inr ⟨by omega, Or.inr hfull⟩

/-- Every choice of alternatives needs the units of all ingredients. -/
theorem fills_needs_chosenRecipe {method : Method} {filename : String} {product : Stack}
    {es : List Ingredient} {names : List String} (h : names.length = es.length) :
    Fills (es.map Ingredient.units).sum
      (chosenRecipe method filename (es.map Ingredient.slot) product names).needs := by
  have hcounts :
      counts (chosenRecipe method filename (es.map Ingredient.slot) product names).needs =
        (es.map Ingredient.units).map (min · Word.max32) := by
    refine List.map_map.symm.trans ?_
    rw [map_amount_needs_chosenRecipe h, List.map_map, List.map_map]
    rfl
  rw [Fills, units, HasFull, hcounts]
  exact sum_min_cases _

/-- A recipe that is emitted for a document, unless it is a mark, needs exactly the units that the
document asks for, also where ingredients are merged, as long as these do not pass the largest
amount. It may need another number than was asked for only if one of its stacks is full. -/
theorem neededUnits_of_mem_extract {c : Catalogue} {d : RecipeText} {r : Recipe}
    (h : r ∈ extract c [d]) (hmarker : r.isMarker = false) :
    ∃ doc type n, Json.parse? d.text = some doc ∧
      (doc.field? "type").bind Json.text? = some type ∧
      (Layout.ofType type).method? = some r.method ∧
      askedUnits doc (Layout.ofType type) = some n ∧
      (n ≤ Word.max32 → r.neededUnits = n) ∧
      (r.neededUnits ≠ n → ∃ s ∈ r.needs, s.amount.count = Word.max32) := by
  obtain ⟨_, hd, q, hq, rfl⟩ := mem_extract_iff.1 h
  cases List.mem_singleton.1 hd
  -- What was read is a mark, which is excluded, or the recipe of one choice of alternatives.
  rcases readOrMark_cases d.text d.filename with hmark | hmark |
    ⟨doc, type, method, es, product, hdoc, htype, hmethod, hes, -, -, hrecipes⟩
  · rw [hmark] at hq
    cases List.mem_singleton.1 hq
    cases hmarker
  · rw [hmark] at hq
    cases List.mem_singleton.1 hq
    cases hmarker
  · rw [hrecipes] at hq
    obtain ⟨names, hnames, rfl⟩ := List.mem_map.1 hq
    have hlength := (mem_picks_iff.1 hnames).length_eq
    rw [List.length_map] at hlength
    refine ⟨doc, type, _, hdoc, htype, hmethod, (units_of_ingredients? hes.asked).1, ?_⟩
    rw [neededUnits_eq_units]
    rcases fills_attach (fills_needs_chosenRecipe hlength) with hunits | ⟨hlarge, hfull⟩
    · exact ⟨fun _ => hunits, fun hne => absurd hunits hne⟩
    · exact ⟨fun hle => absurd hle (Nat.not_le.2 hlarge), fun _ => List.mem_map.1 hfull⟩

/-- Two symbols that both stand for a stick come to one stack of two. -/
theorem neededUnits_of_mem_extract_merged :
    let d : RecipeText := ⟨"ladder.json",
      "\x7b\"type\":\"crafting_shaped\",\"pattern\":[\"ab\"],\"key\":" ++
        "\x7b\"a\":\"stick\",\"b\":\"minecraft:stick\"\x7d,\"result\":\"ladder\"\x7d"⟩
    let r : Recipe := ⟨.shaped, "ladder.json",
      [⟨Material.ofItemId "minecraft:stick", Amount.clamp 2⟩],
      [⟨Material.ofItemId "minecraft:ladder", Amount.one⟩]⟩
    r ∈ extract ⟨[], []⟩ [d] ∧ r.isMarker = false ∧
      ∃ doc type n, Json.parse? d.text = some doc ∧
        (doc.field? "type").bind Json.text? = some type ∧
        (Layout.ofType type).method? = some r.method ∧
        askedUnits doc (Layout.ofType type) = some n ∧
        (n ≤ Word.max32 → r.neededUnits = n) ∧
        (r.neededUnits ≠ n → ∃ s ∈ r.needs, s.amount.count = Word.max32) := by
  intro d r
  have hr : r ∈ extract ⟨[], []⟩ [d] := by decide +kernel
  exact ⟨hr, rfl, neededUnits_of_mem_extract hr rfl⟩

end RecipePlanner.Extraction

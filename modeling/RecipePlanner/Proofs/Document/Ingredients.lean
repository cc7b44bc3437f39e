import Mathlib.Data.List.Induction
import RecipePlanner.Document.Recipes
import RecipePlanner.FirstSeen
import RecipePlanner.Proofs.Outcome

/-!
# The ingredients of a document

What a document asks for, read off without regard to what may be wrong with it: an ingredient is a
value that names alternatives, with the number of units. A pattern asks for each of its symbols, in
the order in which they appear, as often as it stands in a cell. Every other layout asks for one unit
of each thing it names (`ingredients?`).

The slots of a document are those of its ingredients. They can be read exactly if there are
ingredients and each of them names an alternative (`exists_slots`), so a document whose fields are in
order is fanned out (`recipes_eq_fanOut`), and what comes out of a document is a mark or was fanned
out of its ingredients (`recipes_cases`).
-/

namespace RecipePlanner.Document

/-- A value that names alternatives, with the units asked for. -/
structure Ingredient where
  choice : Json
  units : Nat

/-- The alternatives for an ingredient. -/
def Ingredient.names (e : Ingredient) : List String := alternatives e.choice

/-- The slot of an ingredient. -/
def Ingredient.slot (e : Ingredient) : Slot := ⟨e.names, Amount.clamp e.units⟩

/-- The rows of the pattern of a document. -/
def rows? (doc : Json) : Option (List String) :=
  ((doc.field? "pattern").bind Json.list?).bind (·.mapM Json.text?)

/-- The symbols in the cells of a pattern, row by row. A space is an empty cell. -/
def filledCells (rows : List String) : List Char := (rows.flatMap String.toList).filter (· ≠ ' ')

/-- The ingredients in some fields, one unit of each. -/
def fieldIngredients? (doc : Json) (fields : List String) : Option (List Ingredient) :=
  fields.mapM fun field => (doc.field? field).map (⟨·, 1⟩)

/-- The ingredients that a document of some layout asks for. -/
def ingredients? (doc : Json) : Layout → Option (List Ingredient)
  | .shaped => do
    let cells := filledCells (← rows? doc)
    let key ← doc.field? "key"
    (firstSeen id cells).mapM fun symbol =>
      (key.field? (String.singleton symbol)).map (⟨·, cells.count symbol⟩)
  | .shapeless =>
    ((doc.field? "ingredients").bind Json.list?).map fun items => items.map (⟨·, 1⟩)
  | .single _ => fieldIngredients? doc ["ingredient"]
  | .smithing => fieldIngredients? doc (smithingFields doc)
  | .transmute => fieldIngredients? doc ["input", "material"]
  | .cosmetic => none
  | .unrecognized => none

/-- The ingredients of a document are in order: there are some, and each names an alternative. -/
structure Legible (doc : Json) (layout : Layout) (es : List Ingredient) : Prop where
  asked : ingredients? doc layout = some es
  nonempty : es ≠ []
  named : ∀ e ∈ es, e.names ≠ []

/-- The method of the recipes in documents of a layout, if there are recipes in them. -/
def Layout.method? : Layout → Option Method
  | .shaped => some .shaped
  | .shapeless => some .shapeless
  | .single method => some method
  | .smithing => some .smithing
  | .transmute => some .transmute
  | .cosmetic => none
  | .unrecognized => none

/-! ## Symbols and their cells -/

theorem foldl_countRow (rows : List String) (counts : List (Char × Nat)) :
    rows.foldl countRow counts = (filledCells rows).foldl countSymbol counts := by
  induction rows generalizing counts with
  | nil => rfl
  | cons row rows ih =>
    rw [List.foldl_cons, ih, filledCells, filledCells, List.flatMap_cons, List.filter_append,
      List.foldl_append, countRow]

theorem map_fst_foldl_countSymbol (cells : List Char) :
    (cells.foldl countSymbol []).map (·.1) = firstSeen id cells := by
  induction cells using List.reverseRecOn with
  | nil => rfl
  | append_singleton cells cell ih =>
    rw [List.foldl_append, List.foldl_cons, List.foldl_nil, countSymbol, Keyed.map_fst_alter, ih,
      firstSeen_append_singleton, List.map_id]
    simp only [mem_firstSeen_id, id]

theorem getD_lookup_foldl_countSymbol (cells : List Char) (symbol : Char) :
    ((cells.foldl countSymbol []).lookup symbol).getD 0 = cells.count symbol := by
  induction cells using List.reverseRecOn with
  | nil => rfl
  | append_singleton cells cell ih =>
    rw [List.foldl_append, List.foldl_cons, List.foldl_nil, countSymbol, Keyed.lookup_alter,
      List.count_append, List.count_singleton]
    by_cases h : symbol = cell
    · subst h
      rw [if_pos rfl, Option.getD_some, ih, beq_self_eq_true, if_pos rfl]
    · rw [if_neg h, ih, beq_eq_false_iff_ne.2 (Ne.symm h)]
      rfl

/-- The table of a pattern lists its symbols in the order in which they appear, each with the number
of its cells. -/
theorem foldl_countSymbol (cells : List Char) :
    cells.foldl countSymbol [] =
      (firstSeen id cells).map fun symbol => (symbol, cells.count symbol) := by
  have hkeys := map_fst_foldl_countSymbol cells
  have hnodup : ((cells.foldl countSymbol []).map (·.1)).Nodup := by
    rw [hkeys]
    exact nodup_firstSeen_id
  rw [← hkeys, List.map_map]
  refine Keyed.eq_of_lookup ?_ hnodup fun symbol => ?_
  · rw [List.map_map]
    rfl
  · -- Both tables list the same symbols, so only the numbers of listed ones have to agree.
    have hcount := getD_lookup_foldl_countSymbol cells symbol
    refine Eq.trans ?_ (Keyed.lookup_map_key (cells.count ·) _ symbol).symm
    cases hlookup : (cells.foldl countSymbol []).lookup symbol with
    | none => rfl
    | some n =>
      rw [hlookup, Option.getD_some] at hcount
      rw [hcount]
      rfl

/-! ## Slots -/

theorem someAlternatives_eq_ok_iff {field : String} {v : Json} {names : List String} :
    someAlternatives field v = .ok names ↔ alternatives v ≠ [] ∧ alternatives v = names := by
  rw [someAlternatives]
  split
  · next h => simp [h]
  · next h =>
    rw [Except.ok.injEq]
    exact ⟨fun heq => ⟨h, heq⟩, And.right⟩

/-- The slot of an ingredient can be read exactly if the ingredient names an alternative. -/
theorem map_someAlternatives_eq_ok_iff {field : String} {e : Ingredient} {s : Slot} :
    ((someAlternatives field e.choice).map fun names => ⟨names, Amount.clamp e.units⟩) = .ok s ↔
      e.names ≠ [] ∧ e.slot = s := by
  rw [Outcome.map_eq_ok_iff]
  constructor
  · rintro ⟨names, hnames, rfl⟩
    obtain ⟨hne, rfl⟩ := someAlternatives_eq_ok_iff.1 hnames
    exact ⟨hne, rfl⟩
  · rintro ⟨hne, rfl⟩
    exact ⟨e.names, someAlternatives_eq_ok_iff.2 ⟨hne, rfl⟩, rfl⟩

theorem symbolSlot_eq_ok_iff {key : Json} {entry : Char × Nat} {s : Slot} :
    symbolSlot key entry = .ok s ↔
      ∃ e, (key.field? (String.singleton entry.1)).map (Ingredient.mk · entry.2) = some e ∧
        e.names ≠ [] ∧ e.slot = s := by
  cases hfield : key.field? (String.singleton entry.1) with
  | none =>
    rw [symbolSlot, hfield]
    exact ⟨nofun, fun ⟨_, h, _⟩ => nomatch h⟩
  | some v =>
    rw [symbolSlot, hfield, Option.map_some]
    simp only [Option.some.injEq, exists_eq_left']
    exact map_someAlternatives_eq_ok_iff (e := ⟨v, entry.2⟩)

/-- One unit of whatever a value names. -/
theorem oneSlot_eq_ok_iff {field : String} {v : Json} {s : Slot} :
    ((someAlternatives field v).map fun names => ⟨names, Amount.one⟩) = .ok s ↔
      ∃ e, some (Ingredient.mk v 1) = some e ∧ e.names ≠ [] ∧ e.slot = s := by
  simp only [Option.some.injEq, exists_eq_left']
  exact map_someAlternatives_eq_ok_iff (e := ⟨v, 1⟩)

theorem map_slot_eq_ok_iff {doc : Json} {field : String} {s : Slot} :
    ((slot doc field).map fun names => ⟨names, Amount.one⟩) = .ok s ↔
      ∃ e, (doc.field? field).map (Ingredient.mk · 1) = some e ∧ e.names ≠ [] ∧ e.slot = s := by
  cases hfield : doc.field? field with
  | none =>
    rw [slot, hfield]
    exact ⟨nofun, fun ⟨_, h, _⟩ => nomatch h⟩
  | some v =>
    rw [slot, hfield, Option.map_some]
    exact oneSlot_eq_ok_iff

theorem shapelessSlots_eq_ok_iff {doc : Json} {slots : List Slot} :
    shapelessSlots doc = .ok slots ↔
      ∃ es, Legible doc .shapeless es ∧ es.map Ingredient.slot = slots := by
  have hnone (h : ingredients? doc .shapeless = none) :
      ¬ ∃ es, Legible doc .shapeless es ∧ es.map Ingredient.slot = slots :=
    fun ⟨_, hes, _⟩ => nomatch h.symm.trans hes.asked
  cases hfield : doc.field? "ingredients" with
  | none =>
    rw [shapelessSlots, hfield]
    exact ⟨nofun, fun h => absurd h (hnone (by rw [ingredients?, hfield]; rfl))⟩
  | some v =>
    have hasked : ingredients? doc .shapeless = v.list?.map fun items =>
        items.map (Ingredient.mk · 1) := by
      rw [ingredients?, hfield, Option.bind_some]
    rw [shapelessSlots, hfield]
    cases v with
    | list items =>
      cases items with
      | nil =>
        refine ⟨nofun, fun ⟨es, hes, _⟩ => absurd ?_ hes.nonempty⟩
        exact (Option.some.inj (hasked.symm.trans hes.asked)).symm
      | cons v vs =>
        have hall : (v :: vs).mapM (fun v => some (Ingredient.mk v 1)) =
            ingredients? doc .shapeless := List.mapM_pure.trans hasked.symm
        rw [Outcome.mapM_eq_ok_iff fun _ _ => oneSlot_eq_ok_iff, hall]
        constructor
        · rintro ⟨es, hes, hnamed, hslots⟩
          refine ⟨es, ⟨hes, ?_, hnamed⟩, hslots⟩
          rintro rfl
          exact nomatch hasked.symm.trans hes
        · rintro ⟨es, hes, hslots⟩
          exact ⟨es, hes.asked, hes.named, hslots⟩
    | _ => exact ⟨nofun, fun h => absurd h (hnone hasked)⟩

theorem fieldSlots_eq_ok_iff {doc : Json} {layout : Layout} {fields : List String}
    (hasked : ingredients? doc layout = fieldIngredients? doc fields) (hfields : fields ≠ [])
    {slots : List Slot} :
    fieldSlots doc fields = .ok slots ↔
      ∃ es, Legible doc layout es ∧ es.map Ingredient.slot = slots := by
  rw [fieldSlots, Outcome.mapM_eq_ok_iff fun _ _ => map_slot_eq_ok_iff, ← fieldIngredients?,
    ← hasked]
  constructor
  · rintro ⟨es, hes, hnamed, hslots⟩
    refine ⟨es, ⟨hes, ?_, hnamed⟩, hslots⟩
    rintro rfl
    rw [hasked, fieldIngredients?, Outcome.mapM_eq_some_iff] at hes
    exact hfields (List.map_eq_nil_iff.1 hes)
  · rintro ⟨es, hes, hslots⟩
    exact ⟨es, hes.asked, hes.named, hslots⟩

theorem firstSeen_id_eq_nil_iff {cells : List Char} : firstSeen id cells = [] ↔ cells = [] := by
  simp only [List.eq_nil_iff_forall_not_mem, mem_firstSeen_id]

theorem symbols_eq_ok_iff {doc : Json} {counts : List (Char × Nat)} :
    symbols doc = .ok counts ↔
      ∃ rows, rows? doc = some rows ∧ filledCells rows ≠ [] ∧
        ((firstSeen id (filledCells rows)).map fun symbol =>
          (symbol, (filledCells rows).count symbol)) = counts := by
  rw [symbols, rows?]
  cases doc.field? "pattern" with
  | none => exact ⟨nofun, fun ⟨_, h, _⟩ => nomatch h⟩
  | some v =>
    dsimp only
    rw [Option.bind_some]
    cases v.list?.bind (·.mapM Json.text?) with
    | none => exact ⟨nofun, fun ⟨_, h, _⟩ => nomatch h⟩
    | some rows =>
      simp only [Option.some.injEq, exists_eq_left', foldl_countRow, foldl_countSymbol]
      cases hcells : filledCells rows with
      | nil => exact ⟨nofun, fun ⟨h, _⟩ => absurd rfl h⟩
      | cons cell cells =>
        rw [← hcells]
        split
        · next hnone =>
          rw [List.map_eq_nil_iff, firstSeen_id_eq_nil_iff] at hnone
          exact ⟨nofun, fun ⟨h, _⟩ => absurd hnone h⟩
        · rw [Except.ok.injEq]
          refine ⟨fun h => ⟨?_, h⟩, And.right⟩
          rw [hcells]
          exact List.cons_ne_nil cell cells

theorem ingredients?_shaped_eq_some_iff {doc : Json} {es : List Ingredient} :
    ingredients? doc .shaped = some es ↔
      ∃ rows, rows? doc = some rows ∧ ∃ key, doc.field? "key" = some key ∧
        ((firstSeen id (filledCells rows)).mapM fun symbol =>
          (key.field? (String.singleton symbol)).map
            (Ingredient.mk · ((filledCells rows).count symbol))) = some es := by
  rw [ingredients?]
  simp only [bind, Option.bind_eq_some_iff]

theorem exists_object_of_field? {v w : Json} {name : String} (h : v.field? name = some w) :
    ∃ members, v = .object members := by
  cases v with
  | object members => exact ⟨members, rfl⟩
  | _ => cases h

theorem shapedSlots_eq_ok_iff {doc : Json} {slots : List Slot} :
    shapedSlots doc = .ok slots ↔
      ∃ es, Legible doc .shaped es ∧ es.map Ingredient.slot = slots := by
  rw [shapedSlots, Outcome.bind_eq_ok_iff]
  constructor
  · -- The key is looked at only after the pattern has given its symbols.
    rintro ⟨counts, hcounts, h⟩
    obtain ⟨rows, hrows, hcells, rfl⟩ := symbols_eq_ok_iff.1 hcounts
    split at h
    · cases h
    · next members hkey =>
      rw [Outcome.mapM_eq_ok_iff fun _ _ => symbolSlot_eq_ok_iff, List.mapM_map] at h
      obtain ⟨es, hes, hnamed, hslots⟩ := h
      have hasked := ingredients?_shaped_eq_some_iff.2 ⟨rows, hrows, _, hkey, hes⟩
      refine ⟨es, ⟨hasked, ?_, hnamed⟩, hslots⟩
      rintro rfl
      have hnone := List.map_eq_nil_iff.1 (Outcome.mapM_eq_some_iff.1 hes)
      exact hcells (firstSeen_id_eq_nil_iff.1 hnone)
    · cases h
  · rintro ⟨es, hes, hslots⟩
    obtain ⟨rows, hrows, key, hkey, hfound⟩ := ingredients?_shaped_eq_some_iff.1 hes.asked
    have hcells : filledCells rows ≠ [] := by
      intro hnone
      rw [hnone] at hfound
      cases hfound
      exact hes.nonempty rfl
    -- What explains the first symbol has members.
    obtain ⟨members, rfl⟩ : ∃ members, key = .object members := by
      obtain ⟨e, rest, rfl⟩ := List.exists_cons_of_ne_nil hes.nonempty
      have hmem : some e ∈ (e :: rest).map some := List.mem_cons_self
      rw [← Outcome.mapM_eq_some_iff.1 hfound] at hmem
      obtain ⟨symbol, -, hsymbol⟩ := List.mem_map.1 hmem
      obtain ⟨v, hv, -⟩ := Option.map_eq_some_iff.1 hsymbol
      exact exists_object_of_field? hv
    refine ⟨_, symbols_eq_ok_iff.2 ⟨rows, hrows, hcells, rfl⟩, ?_⟩
    rw [hkey]
    dsimp only
    rw [Outcome.mapM_eq_ok_iff fun _ _ => symbolSlot_eq_ok_iff, List.mapM_map]
    exact ⟨es, hfound, hes.named, hslots⟩

/-! ## Documents -/

section Recipes

variable {doc : Json} {type filename : String} {method : Method}

/-- A document of a layout that has a method is assembled from slots, which can be read exactly if
its ingredients are in order. -/
theorem exists_slots (filename : String) (htype : (doc.field? "type").bind Json.text? = some type)
    (hmethod : (Layout.ofType type).method? = some method) :
    ∃ slots, recipes doc filename = assemble doc filename method slots ∧
      ∀ ss, slots = .ok ss ↔
        ∃ es, Legible doc (Layout.ofType type) es ∧ es.map Ingredient.slot = ss := by
  have hfields : smithingFields doc ≠ [] := by
    rw [smithingFields]
    split <;> exact List.cons_ne_nil _ _
  rw [recipes, htype]
  dsimp only
  cases hlayout : Layout.ofType type <;> rw [hlayout] at hmethod <;> cases hmethod
  case shaped => exact ⟨_, rfl, fun _ => shapedSlots_eq_ok_iff⟩
  case shapeless => exact ⟨_, rfl, fun _ => shapelessSlots_eq_ok_iff⟩
  case single =>
    refine ⟨_, rfl, fun _ => fieldSlots_eq_ok_iff ?_ (List.cons_ne_nil _ _)⟩
    rw [ingredients?]
  case smithing =>
    refine ⟨_, rfl, fun _ => fieldSlots_eq_ok_iff ?_ hfields⟩
    rw [ingredients?]
  case transmute =>
    refine ⟨_, rfl, fun _ => fieldSlots_eq_ok_iff ?_ (List.cons_ne_nil _ _)⟩
    rw [ingredients?]

/-- A document whose fields are in order is fanned out. -/
theorem recipes_eq_fanOut (htype : (doc.field? "type").bind Json.text? = some type)
    (hmethod : (Layout.ofType type).method? = some method) {es : List Ingredient}
    (hes : Legible doc (Layout.ofType type) es) {product : Stack}
    (hproduct : productStack doc = .ok product) :
    recipes doc filename = fanOut method filename (es.map Ingredient.slot) product := by
  obtain ⟨slots, hslots, hiff⟩ := exists_slots filename htype hmethod
  rw [hslots, (hiff _).2 ⟨es, hes, rfl⟩, assemble, hproduct]
  rfl

/-- What comes out of a document is one mark, or it was fanned out of the ingredients. -/
theorem recipes_cases {rs : List Recipe} (h : recipes doc filename = .ok rs) :
    rs = [Recipe.unreadable filename] ∨ rs = [Recipe.cosmetic filename] ∨
      ∃ type method es product, (doc.field? "type").bind Json.text? = some type ∧
        (Layout.ofType type).method? = some method ∧ Legible doc (Layout.ofType type) es ∧
        productStack doc = .ok product ∧
        fanOut method filename (es.map Ingredient.slot) product = .ok rs := by
  cases htype : (doc.field? "type").bind Json.text? with
  | none =>
    rw [recipes, htype] at h
    cases h
    exact Or.inl rfl
  | some type =>
    cases hmethod : (Layout.ofType type).method? with
    | none =>
      rw [recipes, htype] at h
      dsimp only at h
      cases hlayout : Layout.ofType type with
      | cosmetic =>
        rw [hlayout] at h
        cases h
        exact Or.inr (Or.inl rfl)
      | unrecognized =>
        rw [hlayout] at h
        cases h
        exact Or.inl rfl
      | _ =>
        rw [hlayout] at hmethod
        cases hmethod
    | some method =>
      obtain ⟨slots, hslots, hiff⟩ := exists_slots filename htype hmethod
      rw [hslots] at h
      obtain ⟨ss, hss, h⟩ := Outcome.bind_eq_ok_iff.1 h
      obtain ⟨product, hproduct, h⟩ := Outcome.bind_eq_ok_iff.1 h
      obtain ⟨es, hes, rfl⟩ := (hiff ss).1 hss
      exact Or.inr (Or.inr ⟨type, method, es, product, rfl, hmethod, hes, hproduct, h⟩)

end Recipes

end RecipePlanner.Document

import Mathlib.Data.List.Basic
import Mathlib.Data.List.Induction
import RecipePlanner.Producers

/-!
# What the tables of producers hold

The two tables of `Producers` are filled recipe by recipe. In the end the recipes held are the
productive ones (`toList_recipes_ofList`), and the tables can be read off these: the form known for
an identifier is the best one in which they mention it (`lookup_known_ofList`), and an item has an
entry exactly if one of them yields it (`mem_byItem_ofList_iff`), and then only one
(`nodup_byItem_ofList`).
-/

namespace RecipePlanner.Producers

/-- The materials that productive recipes mention, those they need before those they yield. -/
def mentions (rs : List Recipe) : List Material :=
  (rs.filter (·.isProductive)).flatMap fun r => (r.needs ++ r.yields).map (·.material)

/-- The materials that productive recipes yield. -/
def yielded (rs : List Recipe) : List Material :=
  (rs.filter (·.isProductive)).flatMap fun r => r.yields.map (·.material)

/-- Of some forms of a material the first that stands for items, else the first. -/
def bestForm? (forms : List Material) : Option Material :=
  (forms.find? fun m => !m.itemIds.isEmpty).or forms.head?

theorem mem_mentions_iff {rs : List Recipe} {m : Material} :
    m ∈ mentions rs ↔
      ∃ r ∈ rs, r.isProductive = true ∧ ∃ s ∈ r.needs ++ r.yields, s.material = m := by
  simp only [mentions, List.mem_flatMap, List.mem_filter, List.mem_map, and_assoc]

theorem mem_yielded_iff {rs : List Recipe} {m : Material} :
    m ∈ yielded rs ↔ ∃ r ∈ rs, r.isProductive = true ∧ ∃ s ∈ r.yields, s.material = m := by
  simp only [yielded, List.mem_flatMap, List.mem_filter, List.mem_map, and_assoc]

/-! ## The recipes -/

/-- The productive recipes are held in the order in which they are given. -/
theorem toList_recipes_ofList (rs : List Recipe) :
    (ofList rs).recipes.toList = rs.filter (·.isProductive) := by
  refine ofList_induction (P := fun rs p => p.recipes.toList = rs) ?_ rfl rs
  intro rs p r h hp
  rw [insert_of_productive h, Array.toList_push, hp]

theorem size_ofList (rs : List Recipe) : (ofList rs).size = (rs.filter (·.isProductive)).length := by
  rw [← toList_recipes_ofList]
  rfl

theorem mem_recipes_ofList_iff {rs : List Recipe} {r : Recipe} :
    r ∈ (ofList rs).recipes ↔ r ∈ rs ∧ r.isProductive = true := by
  rw [← Array.mem_toList_iff, toList_recipes_ofList, List.mem_filter]

/-! ## Known forms -/

/-- The known forms are those after meeting the mentioned materials one by one. -/
theorem known_ofList (rs : List Recipe) : (ofList rs).known = (mentions rs).foldl remember [] := by
  refine ofList_induction (P := fun rs p => p.known =
    (rs.flatMap fun r => (r.needs ++ r.yields).map (·.material)).foldl remember []) ?_ rfl rs
  intro rs p r h hp
  rw [insert_of_productive h, hp, List.flatMap_append, List.flatMap_singleton, List.foldl_append]

theorem isEmpty_itemIds_tag (t : Tag) : (Material.tag t).itemIds.isEmpty = t.members.isEmpty := by
  rw [Material.itemIds, List.isEmpty_map]

/-- A form that stands for items stays, and any other gives way to one that does. -/
theorem better_eq (earlier new : Material) :
    better earlier new =
      if earlier.itemIds.isEmpty ∧ ¬ new.itemIds.isEmpty then new else earlier := by
  cases earlier with
  | item i => rfl
  | tag t => rw [better, isEmpty_itemIds_tag]

/-- The best of some forms and one more is the better of the best form and the new one. -/
theorem bestForm?_append_singleton (forms : List Material) (m : Material) :
    bestForm? (forms ++ [m]) = some (((bestForm? forms).map (better · m)).getD m) := by
  cases hfind : forms.find? fun m => !m.itemIds.isEmpty with
  | some form =>
    -- A form that stands for items was there already, and it stays.
    have hform : ¬ form.itemIds.isEmpty = true := by
      have htrue := List.find?_some hfind
      rwa [Bool.not_eq_true', ← Bool.not_eq_true] at htrue
    have hkept : better form m = form := by
      rw [better_eq, if_neg fun h => hform h.1]
    simp [bestForm?, List.find?_append, hfind, hkept]
  | none =>
    cases forms with
    | nil => cases h : m.itemIds.isEmpty <;> simp [bestForm?, h]
    | cons form forms =>
      have hempty : form.itemIds.isEmpty = true := by
        have hnone := List.find?_eq_none.1 hfind form List.mem_cons_self
        rwa [Bool.not_eq_true', Bool.not_eq_false] at hnone
      have hbest : bestForm? (form :: forms) = some form := by
        rw [bestForm?, hfind]
        rfl
      have hlast : better form m = if m.itemIds.isEmpty then form else m := by
        rw [better_eq]
        cases m.itemIds.isEmpty <;> simp [hempty]
      rw [hbest, Option.map_some, Option.getD_some, hlast, bestForm?, List.find?_append, hfind]
      cases h : m.itemIds.isEmpty <;> simp [h]

/-- After some materials the best form of an identifier is known, if they include one. -/
theorem lookup_foldl_remember (ms : List Material) (id : String) :
    (ms.foldl remember []).lookup id = bestForm? (ms.filter (·.id = id)) := by
  induction ms using List.reverseRecOn with
  | nil => rfl
  | append_singleton ms m ih =>
    rw [List.foldl_append, List.foldl_cons, List.foldl_nil, remember, Keyed.lookup_alter,
      List.filter_append]
    by_cases h : id = m.id
    · subst h
      rw [if_pos rfl, ih, List.filter_cons_of_pos (by simp), List.filter_nil,
        bestForm?_append_singleton]
    · rw [if_neg h, ih, List.filter_cons_of_neg (by simpa using Ne.symm h), List.filter_nil,
        List.append_nil]

theorem lookup_known_ofList (rs : List Recipe) (id : String) :
    (ofList rs).known.lookup id = bestForm? ((mentions rs).filter (·.id = id)) := by
  rw [known_ofList, lookup_foldl_remember]

theorem mem_of_bestForm? {forms : List Material} {m : Material} (h : bestForm? forms = some m) :
    m ∈ forms := by
  rcases Option.or_eq_some_iff.1 h with h | ⟨-, h⟩
  · exact List.mem_of_find?_eq_some h
  · exact List.mem_of_head? h

theorem bestForm?_eq_none_iff {forms : List Material} : bestForm? forms = none ↔ forms = [] := by
  rw [bestForm?, Option.or_eq_none_iff, List.head?_eq_none_iff, and_iff_right_iff_imp]
  rintro rfl
  rfl

/-- What is looked up is a form in which the identifier is mentioned, or it is not mentioned at all
and what its text says. -/
theorem lookup_ofList_cases (rs : List Recipe) (raw : String) :
    ((ofList rs).lookup raw ∈ mentions rs ∧ ((ofList rs).lookup raw).id = Text.trim raw) ∨
      (ofList rs).lookup raw = Material.parse (Text.trim raw) ∧
        ∀ m ∈ mentions rs, m.id ≠ Text.trim raw := by
  rw [lookup, lookup_known_ofList]
  cases h : bestForm? ((mentions rs).filter (·.id = Text.trim raw)) with
  | some m =>
    obtain ⟨hm, hid⟩ := List.mem_filter.1 (mem_of_bestForm? h)
    rw [Option.getD_some]
    exact Or.inl ⟨hm, of_decide_eq_true hid⟩
  | none =>
    rw [Option.getD_none]
    refine Or.inr ⟨rfl, fun m hm hid => ?_⟩
    exact List.filter_eq_nil_iff.1 (bestForm?_eq_none_iff.1 h) m hm (decide_eq_true hid)

/-- What is looked up has the identifier that was asked for. -/
theorem id_lookup_ofList (rs : List Recipe) (raw : String) :
    ((ofList rs).lookup raw).id = Text.trim raw := by
  rcases lookup_ofList_cases rs raw with ⟨-, hid⟩ | ⟨hparse, -⟩
  · exact hid
  · rw [hparse, Material.id_parse, Text.trim_trim]

/-! ## Entries of items -/

theorem mem_note_iff {position : Nat} {byItem : List (String × List Nat)} {m : Material}
    {id : String} :
    id ∈ (note position byItem m).map (·.1) ↔
      id ∈ byItem.map (·.1) ∨ m.isTag = false ∧ m.id = id := by
  rw [note]
  split
  · next h => simp [h]
  · next h =>
    rw [Keyed.map_fst_alter, Bool.not_eq_true] at *
    split
    · next hmem =>
      refine ⟨Or.inl, ?_⟩
      rintro (hid | ⟨-, rfl⟩)
      · exact hid
      · exact hmem
    · rw [List.mem_append, List.mem_singleton, and_iff_right h, @eq_comm _ id]

theorem mem_foldl_note_iff (ms : List Material) {position : Nat}
    {byItem : List (String × List Nat)} {id : String} :
    id ∈ (ms.foldl (note position) byItem).map (·.1) ↔
      id ∈ byItem.map (·.1) ∨ ∃ m ∈ ms, m.isTag = false ∧ m.id = id := by
  induction ms generalizing byItem with
  | nil => simp
  | cons m ms ih => rw [List.foldl_cons, ih, mem_note_iff, List.exists_mem_cons_iff, or_assoc]

/-- An item has an entry exactly if a productive recipe yields it. -/
theorem mem_byItem_ofList_iff (rs : List Recipe) {id : String} :
    id ∈ (ofList rs).byItem.map (·.1) ↔ ∃ m ∈ yielded rs, m.isTag = false ∧ m.id = id := by
  refine ofList_induction (P := fun rs p => id ∈ p.byItem.map (·.1) ↔
    ∃ m ∈ rs.flatMap fun r => r.yields.map (·.material), m.isTag = false ∧ m.id = id) ?_ ?_ rs
  · intro rs p r h hp
    rw [insert_of_productive h, mem_foldl_note_iff, hp, List.flatMap_append, List.flatMap_singleton]
    simp only [List.mem_append, or_and_right, exists_or]
  · exact iff_of_false List.not_mem_nil fun ⟨_, hm, _⟩ => List.not_mem_nil hm

theorem nodup_foldl_note (ms : List Material) (position : Nat) {byItem : List (String × List Nat)}
    (h : (byItem.map (·.1)).Nodup) : ((ms.foldl (note position) byItem).map (·.1)).Nodup := by
  induction ms generalizing byItem with
  | nil => exact h
  | cons m ms ih =>
    apply ih
    rw [note]
    split
    · exact h
    · exact Keyed.nodup_map_fst_alter _ _ h

/-- No item has two entries. -/
theorem nodup_byItem_ofList (rs : List Recipe) : ((ofList rs).byItem.map (·.1)).Nodup := by
  refine ofList_induction (P := fun _ p => (p.byItem.map (·.1)).Nodup) ?_ List.nodup_nil rs
  intro rs p r h hp
  rw [insert_of_productive h]
  exact nodup_foldl_note _ _ hp

end RecipePlanner.Producers

import RecipePlanner.Extraction
import RecipePlanner.Proofs.Document.Given

/-!
# What an extraction emits

Each recipe of a batch is a mark without materials, or a way to make something whose materials all
have the form that the catalogue gives them (`emitted_cases`). What is needed was read from a name,
and what is yielded is one item.
-/

namespace RecipePlanner.Extraction

variable {c : Catalogue} {documents : List RecipeText} {r : Recipe}

theorem mem_extract_iff :
    r ∈ extract c documents ↔
      ∃ d ∈ documents, ∃ q ∈ Document.readOrMark d.text d.filename, attach c q = r := by
  simp only [extract, List.mem_map, List.mem_flatMap]
  constructor
  · rintro ⟨q, ⟨d, hd, hq⟩, rfl⟩
    exact ⟨d, hd, q, hq, rfl⟩
  · rintro ⟨d, hd, q, hq, rfl⟩
    exact ⟨q, ⟨d, hd, hq⟩, rfl⟩

/-! ## Merged stacks -/

theorem material_of_mem_mergeStack {held : List Stack} {s t : Stack}
    (h : t ∈ Recipe.mergeStack held s) :
    t.material = s.material ∨ ∃ u ∈ held, t.material = u.material := by
  induction held with
  | nil => exact Or.inl (congrArg Stack.material (List.mem_singleton.1 h))
  | cons u held ih =>
    rw [Recipe.mergeStack] at h
    split at h
    · -- The amount of the first stack goes up, its material stays.
      rcases List.mem_cons.1 h with rfl | h
      · exact Or.inr ⟨u, List.mem_cons_self, rfl⟩
      · exact Or.inr ⟨t, List.mem_cons_of_mem _ h, rfl⟩
    · rcases List.mem_cons.1 h with rfl | h
      · exact Or.inr ⟨t, List.mem_cons_self, rfl⟩
      · rcases ih h with hs | ⟨v, hv, hmaterial⟩
        · exact Or.inl hs
        · exact Or.inr ⟨v, List.mem_cons_of_mem _ hv, hmaterial⟩

/-- What holds of the materials that are given holds of those of the merged stacks. -/
theorem forall_material_mergeStacks {P : Material → Prop} {given : List Stack}
    (h : ∀ s ∈ given, P s.material) : ∀ s ∈ Recipe.mergeStacks given, P s.material := by
  refine List.foldlRecOn (motive := fun held : List Stack => ∀ s ∈ held, P s.material) given _
    (List.forall_mem_nil _) fun held hheld s hs t ht => ?_
  rcases material_of_mem_mergeStack ht with hmaterial | ⟨u, hu, hmaterial⟩
  · rw [hmaterial]
    exact h s hs
  · rw [hmaterial]
    exact hheld u hu

/-! ## Emitted recipes -/

/-- A recipe of a batch is a mark without materials, or it has materials in the form that the
catalogue gives them: what it needs is read from names, what it yields is one item. -/
theorem emitted_cases (h : r ∈ extract c documents) :
    (r.isMarker = true ∧ r.needs = [] ∧ r.yields = []) ∨
      (r.isMarker = false ∧
        (∀ s ∈ r.needs, ∃ name, s.material = c.resolve (.parse name)) ∧
        ∃ product amount,
          r.yields = [⟨c.resolve (.ofItemId (Naming.qualified product)), amount⟩]) := by
  obtain ⟨d, -, q, hq, rfl⟩ := mem_extract_iff.1 h
  cases Document.given_of_mem_readOrMark hq with
  | unreadable => exact Or.inl ⟨rfl, rfl, rfl⟩
  | cosmetic => exact Or.inl ⟨rfl, rfl, rfl⟩
  | made hmethod hneeds product amount =>
    refine Or.inr ⟨hmethod, ?_, product, amount, rfl⟩
    refine forall_material_mergeStacks (P := fun m => ∃ name, m = c.resolve (.parse name))
      fun s hs => ?_
    obtain ⟨t, ht, rfl⟩ := List.mem_map.1 hs
    obtain ⟨name, hname⟩ := hneeds t ht
    exact ⟨name, congrArg c.resolve hname⟩

/-- A recipe that is no mark makes something. -/
theorem isProductive_of_mem_extract (h : r ∈ extract c documents) (hmarker : r.isMarker = false) :
    r.isProductive = true := by
  rcases emitted_cases h with ⟨htrue, -, -⟩ | ⟨-, -, product, amount, hyields⟩
  · exact nomatch hmarker.symm.trans htrue
  · rw [Recipe.isProductive, hmarker, hyields]
    rfl

theorem isProductive_of_mem_yields (h : r ∈ extract c documents) {s : Stack} (hs : s ∈ r.yields) :
    r.isProductive = true := by
  rcases emitted_cases h with ⟨-, -, hnone⟩ | ⟨hmarker, -, -⟩
  · rw [hnone] at hs
    cases hs
  · exact isProductive_of_mem_extract h hmarker

/-- What is needed is a tag exactly if its identifier is marked as one. -/
theorem isTag_of_mem_needs (h : r ∈ extract c documents) {s : Stack} (hs : s ∈ r.needs) :
    s.material.isTag = Naming.isTagName s.id := by
  rcases emitted_cases h with ⟨-, hnone, -⟩ | ⟨-, hneeds, -⟩
  · rw [hnone] at hs
    cases hs
  · obtain ⟨name, hname⟩ := hneeds s hs
    rw [Stack.id, hname, c.isTag_resolve, c.id_resolve, Material.isTag_parse]

/-- What is needed has an identifier without blanks at its ends. -/
theorem trim_id_of_mem_needs (h : r ∈ extract c documents) {s : Stack} (hs : s ∈ r.needs) :
    Text.trim s.id = s.id := by
  rcases emitted_cases h with ⟨-, hnone, -⟩ | ⟨-, hneeds, -⟩
  · rw [hnone] at hs
    cases hs
  · obtain ⟨name, hname⟩ := hneeds s hs
    rw [Stack.id, hname, c.id_resolve, Material.id_parse, Text.trim_trim]

/-- What is yielded is an item. -/
theorem isTag_of_mem_yields (h : r ∈ extract c documents) {s : Stack} (hs : s ∈ r.yields) :
    s.material.isTag = false := by
  rcases emitted_cases h with ⟨-, -, hnone⟩ | ⟨-, -, product, amount, hyields⟩
  · rw [hnone] at hs
    cases hs
  · rw [hyields] at hs
    rw [List.mem_singleton.1 hs, c.isTag_resolve]
    rfl

/-- Every material has the form that the catalogue gives it. -/
theorem resolve_of_mem_extract (h : r ∈ extract c documents) {s : Stack}
    (hs : s ∈ r.needs ++ r.yields) : c.resolve s.material = s.material := by
  rcases emitted_cases h with ⟨-, hneeds, hyields⟩ | ⟨-, hneeds, product, amount, hyields⟩
  · rw [hneeds, hyields] at hs
    cases hs
  · rcases List.mem_append.1 hs with hs | hs
    · obtain ⟨name, hname⟩ := hneeds s hs
      rw [hname, c.resolve_resolve]
    · rw [hyields] at hs
      rw [List.mem_singleton.1 hs, c.resolve_resolve]

end RecipePlanner.Extraction

import RecipePlanner.Proofs.Extraction.Units

/-!
# What merging makes of the stacks

Merging takes the stacks of a recipe one by one into those merged so far. In the end there is one stack
for each identifier, in the order in which the identifiers came, with the material of the first stack
and the units of all, held at the largest amount (`mergeStacks_eq_totals`). Stacks with different
identifiers are merged already (`mergeStacks_of_nodup`), and no unit is lost unless an identifier has
more than the largest amount (`units_mergeStacks`).

A catalogue changes no identifier, so what it makes of a recipe can be told from the recipe alone, and
making it a second time changes nothing (`attach_eq_totals`).
-/

namespace RecipePlanner.Extraction

variable {given held : List Stack} {s t : Stack}

/-! ## Units under one identifier -/

/-- The units of the stacks with one identifier. -/
def unitsOf (given : List Stack) (id : String) : Nat := units (given.filter (·.id = id))

theorem unitsOf_append_singleton (given : List Stack) (s : Stack) (id : String) :
    unitsOf (given ++ [s]) id = unitsOf given id + if s.id = id then s.amount.count else 0 := by
  rw [unitsOf, unitsOf, List.filter_append, units_append]
  by_cases h : s.id = id
  · simp [h, units, counts]
  · simp [h, units, counts]

theorem unitsOf_eq_zero {id : String} (h : id ∉ given.map Stack.id) : unitsOf given id = 0 := by
  have hnone : given.filter (·.id = id) = [] := by
    rw [List.filter_eq_nil_iff]
    intro s hs hid
    exact h (List.mem_map.2 ⟨s, hs, of_decide_eq_true hid⟩)
  rw [unitsOf, hnone]
  rfl

/-- A stack of the same material with the units of all stacks with its identifier. -/
def total (given : List Stack) (s : Stack) : Stack :=
  ⟨s.material, Amount.clamp (unitsOf given s.id)⟩

@[simp] theorem id_total (given : List Stack) (s : Stack) : (total given s).id = s.id := rfl

theorem total_append_of_ne (given : List Stack) (h : t.id ≠ s.id) :
    total (given ++ [s]) t = total given t := by
  rw [total, unitsOf_append_singleton, if_neg (Ne.symm h), Nat.add_zero, total]

theorem total_append_of_eq (given : List Stack) (h : t.id = s.id) :
    total (given ++ [s]) t =
      { total given t with amount := (total given t).amount.add s.amount } := by
  rw [total, unitsOf_append_singleton, if_pos h.symm, total, Amount.add_clamp]

theorem total_append_of_not_mem (h : s.id ∉ given.map Stack.id) : total (given ++ [s]) s = s := by
  rw [total, unitsOf_append_singleton, if_pos rfl, unitsOf_eq_zero h, Nat.zero_add,
    Amount.clamp_count]

/-- The stacks with the first mention of each identifier, each with the units of all. -/
def totals (given : List Stack) : List Stack := (firstSeen Stack.id given).map (total given)

theorem map_id_totals (given : List Stack) :
    (totals given).map Stack.id = (firstSeen Stack.id given).map Stack.id := by
  rw [totals, List.map_map]
  rfl

theorem nodup_map_id_totals (given : List Stack) : ((totals given).map Stack.id).Nodup := by
  rw [map_id_totals]
  exact nodup_map_firstSeen Stack.id given

theorem mem_map_id_totals_iff {id : String} :
    id ∈ (totals given).map Stack.id ↔ id ∈ given.map Stack.id := by
  rw [map_id_totals, mem_map_firstSeen]

/-- A stack under a new identifier goes to the end. -/
theorem totals_append_of_not_mem (h : s.id ∉ given.map Stack.id) :
    totals (given ++ [s]) = totals given ++ [s] := by
  rw [totals, firstSeen_append_singleton, if_neg h, List.map_append, List.map_singleton,
    total_append_of_not_mem h, totals]
  congr 1
  apply List.map_congr_left
  intro t ht
  apply total_append_of_ne
  intro heq
  exact h (heq ▸ List.mem_map_of_mem ((firstSeen_sublist Stack.id given).mem ht))

/-- A stack under an identifier that was there adds its units to those of the identifier. -/
theorem totals_append_of_mem (h : s.id ∈ given.map Stack.id) :
    totals (given ++ [s]) = (totals given).map fun t =>
      if t.id = s.id then { t with amount := t.amount.add s.amount } else t := by
  rw [totals, firstSeen_append_singleton, if_pos h, totals, List.map_map]
  apply List.map_congr_left
  intro t _
  rw [Function.comp_apply, id_total]
  split
  · next hid => exact total_append_of_eq given hid
  · next hid => exact total_append_of_ne given hid

/-! ## Merging -/

theorem mergeStack_of_not_mem (h : s.id ∉ held.map Stack.id) :
    Recipe.mergeStack held s = held ++ [s] := by
  induction held with
  | nil => rfl
  | cons t held ih =>
    rw [List.map_cons, List.mem_cons, not_or] at h
    rw [Recipe.mergeStack, if_neg (Ne.symm h.1), ih h.2, List.cons_append]

theorem mergeStack_of_mem (hnodup : (held.map Stack.id).Nodup) (h : s.id ∈ held.map Stack.id) :
    Recipe.mergeStack held s = held.map fun t =>
      if t.id = s.id then { t with amount := t.amount.add s.amount } else t := by
  induction held with
  | nil => cases h
  | cons t held ih =>
    obtain ⟨ht, hnodup⟩ := List.nodup_cons.1 hnodup
    rw [Recipe.mergeStack, List.map_cons]
    by_cases hid : t.id = s.id
    · -- The identifier does not come again, so the other stacks stay as they are.
      have hrest : ∀ u ∈ held, u.id ≠ s.id := by
        intro u hu heq
        exact ht (hid.trans heq.symm ▸ List.mem_map_of_mem hu)
      rw [if_pos hid, if_pos hid, List.map_congr_left fun u hu => if_neg (hrest u hu), List.map_id']
    · rw [List.map_cons, List.mem_cons] at h
      rw [if_neg hid, if_neg hid, ih hnodup (h.resolve_left (Ne.symm hid))]

theorem mergeStack_totals (given : List Stack) (s : Stack) :
    Recipe.mergeStack (totals given) s = totals (given ++ [s]) := by
  by_cases h : s.id ∈ given.map Stack.id
  · rw [mergeStack_of_mem (nodup_map_id_totals given) (mem_map_id_totals_iff.2 h),
      totals_append_of_mem h]
  · rw [mergeStack_of_not_mem (mt mem_map_id_totals_iff.1 h), totals_append_of_not_mem h]

theorem mergeStacks_append_singleton (given : List Stack) (s : Stack) :
    Recipe.mergeStacks (given ++ [s]) = Recipe.mergeStack (Recipe.mergeStacks given) s := by
  rw [Recipe.mergeStacks, List.foldl_append, Recipe.mergeStacks]
  rfl

/-- Merging leaves one stack for each identifier, with all its units. -/
theorem mergeStacks_eq_totals (given : List Stack) : Recipe.mergeStacks given = totals given := by
  induction given using List.reverseRecOn with
  | nil => rfl
  | append_singleton given s ih => rw [mergeStacks_append_singleton, ih, mergeStack_totals]

example :
    let coal := Material.parse "minecraft:coal"
    let stick := Material.parse "minecraft:stick"
    Recipe.mergeStacks [⟨coal, .clamp 4294967290⟩, ⟨stick, .one⟩, ⟨coal, .clamp 9⟩] =
      [⟨coal, .clamp 4294967295⟩, ⟨stick, .one⟩] := by decide

/-- Stacks with different identifiers are merged already. -/
theorem mergeStacks_of_nodup (h : (given.map Stack.id).Nodup) :
    Recipe.mergeStacks given = given := by
  induction given using List.reverseRecOn with
  | nil => rfl
  | append_singleton given s ih =>
    rw [List.map_append, List.map_singleton, List.nodup_append] at h
    have hnew : s.id ∉ given.map Stack.id := by
      intro hmem
      exact h.2.2 s.id hmem s.id (List.mem_singleton_self _) rfl
    rw [mergeStacks_append_singleton, ih h.1, mergeStack_of_not_mem hnew]

/-- A stack that is merged adds its units if none of them passes the largest amount. -/
theorem units_mergeStack_of_le
    (h : ∀ t ∈ held, t.id = s.id → t.amount.count + s.amount.count ≤ Word.max32) :
    units (Recipe.mergeStack held s) = units held + s.amount.count := by
  induction held with
  | nil => exact Nat.add_comm _ _
  | cons t held ih =>
    obtain ⟨ht, hheld⟩ := List.forall_mem_cons.1 h
    rw [Recipe.mergeStack]
    split
    · next hid =>
      have hcount : (t.amount.add s.amount).count = t.amount.count + s.amount.count := by
        rw [Amount.count_add, Nat.min_eq_left (ht hid)]
      rw [units_cons, units_cons, hcount]
      omega
    · rw [units_cons, units_cons, ih hheld]
      omega

/-- No unit is lost as long as no identifier has more units than the largest amount. -/
theorem units_mergeStacks (h : ∀ s ∈ given, unitsOf given s.id ≤ Word.max32) :
    units (Recipe.mergeStacks given) = units given := by
  induction given using List.reverseRecOn with
  | nil => rfl
  | append_singleton given s ih =>
    -- With the last stack an identifier has at least the units that it has without it.
    have hlast : unitsOf given s.id + s.amount.count ≤ Word.max32 := by
      have hs := h s (List.mem_append_right _ (List.mem_singleton_self s))
      rwa [unitsOf_append_singleton, if_pos rfl] at hs
    have hgiven : ∀ t ∈ given, unitsOf given t.id ≤ Word.max32 := by
      intro t ht
      have hle := h t (List.mem_append_left _ ht)
      rw [unitsOf_append_singleton] at hle
      omega
    have hadd : ∀ t ∈ totals given, t.id = s.id →
        t.amount.count + s.amount.count ≤ Word.max32 := by
      intro t ht hid
      obtain ⟨u, -, rfl⟩ := List.mem_map.1 ht
      rw [id_total] at hid
      rw [total, Amount.count_clamp, hid]
      omega
    rw [mergeStacks_append_singleton, mergeStacks_eq_totals, units_mergeStack_of_le hadd,
      ← mergeStacks_eq_totals, ih hgiven, units_append]
    rfl

/-! ## Catalogues -/

theorem yields_attach (c : Catalogue) (r : Recipe) :
    (attach c r).yields = r.yields.map (resolved c) := rfl

theorem id_resolved (c : Catalogue) (s : Stack) : (resolved c s).id = s.id :=
  c.id_resolve s.material

theorem unitsOf_map_resolved (c : Catalogue) (given : List Stack) (id : String) :
    unitsOf (given.map (resolved c)) id = unitsOf given id := by
  have hid : (fun s : Stack => decide (s.id = id)) ∘ resolved c = fun s => decide (s.id = id) := by
    funext s
    rw [Function.comp_apply, id_resolved]
  rw [unitsOf, List.filter_map, hid, units, counts_map_resolved, unitsOf, units]

theorem totals_map_resolved (c : Catalogue) (given : List Stack) :
    totals (given.map (resolved c)) =
      (firstSeen Stack.id given).map fun s =>
        ⟨c.resolve s.material, Amount.clamp (unitsOf given s.id)⟩ := by
  have hid : Stack.id ∘ resolved c = Stack.id := funext (id_resolved c)
  rw [totals, firstSeen_map, hid, List.map_map]
  apply List.map_congr_left
  intro s _
  rw [Function.comp_apply, total, id_resolved, unitsOf_map_resolved, resolved]

theorem map_resolved_eq_self {c : Catalogue} {given : List Stack}
    (h : ∀ s ∈ given, c.resolve s.material = s.material) : given.map (resolved c) = given := by
  have hstack : ∀ s ∈ given, resolved c s = s := by
    intro s hs
    rw [resolved, h s hs]
  rw [List.map_congr_left hstack, List.map_id']

theorem resolve_of_mem_map_resolved {c : Catalogue} {given : List Stack} :
    ∀ s ∈ given.map (resolved c), c.resolve s.material = s.material := by
  rw [List.forall_mem_map]
  intro s _
  exact c.resolve_resolve s.material

/-- A recipe that has its materials in the form of the catalogue and is merged stays as it is. -/
theorem attach_attach (c : Catalogue) (r : Recipe) : attach c (attach c r) = attach c r := by
  have hneeds : ∀ s ∈ (attach c r).needs, c.resolve s.material = s.material := by
    rw [needs_attach]
    exact forall_material_mergeStacks (P := fun m => c.resolve m = m) resolve_of_mem_map_resolved
  have hyields : ∀ s ∈ (attach c r).yields, c.resolve s.material = s.material := by
    rw [yields_attach]
    exact resolve_of_mem_map_resolved
  have hnodup : ((attach c r).needs.map Stack.id).Nodup := by
    rw [needs_attach, mergeStacks_eq_totals]
    exact nodup_map_id_totals _
  -- Both lists are in the form of the catalogue, and the needs are merged, so all steps do nothing.
  calc attach c (attach c r)
      = { attach c r with
          needs := Recipe.mergeStacks ((attach c r).needs.map (resolved c))
          yields := (attach c r).yields.map (resolved c) } := rfl
    _ = attach c r := by
      rw [map_resolved_eq_self hneeds, map_resolved_eq_self hyields, mergeStacks_of_nodup hnodup]

theorem neededUnits_attach {c : Catalogue} {r : Recipe}
    (h : ∀ s ∈ r.needs, unitsOf r.needs s.id ≤ Word.max32) :
    (attach c r).neededUnits = r.neededUnits := by
  have hresolved : ∀ s ∈ r.needs.map (resolved c),
      unitsOf (r.needs.map (resolved c)) s.id ≤ Word.max32 := by
    rw [List.forall_mem_map]
    intro s hs
    rw [unitsOf_map_resolved, id_resolved]
    exact h s hs
  rw [neededUnits_eq_units, needs_attach, units_mergeStacks hresolved, units, counts_map_resolved,
    neededUnits_eq_units, units]

/-- A catalogue makes of a recipe one with the same method and of the same file. There is one need for
each identifier, in the order in which the identifiers came, in the form that the catalogue gives the
first material with it and with the units of all, held at the largest amount. What is yielded keeps its
order and its amounts. Unless an identifier has more than the largest amount no unit is lost, and a
second time nothing changes. -/
theorem stacks_of_attach (c : Catalogue) (r : Recipe) :
    let t := attach c r
    (t.needs = (firstSeen Stack.id r.needs).map fun s =>
      ⟨c.resolve s.material, Amount.clamp (unitsOf r.needs s.id)⟩) ∧
    t.needs.map Stack.id = (r.needs.map Stack.id).eraseDups ∧
    (t.yields = r.yields.map fun s => ⟨c.resolve s.material, s.amount⟩) ∧
    t.method = r.method ∧ t.filename = r.filename ∧
    ((∀ s ∈ r.needs, unitsOf r.needs s.id ≤ Word.max32) → t.neededUnits = r.neededUnits) ∧
    attach c t = t := by
  intro t
  have hneeds : t.needs = (firstSeen Stack.id r.needs).map fun s =>
      ⟨c.resolve s.material, Amount.clamp (unitsOf r.needs s.id)⟩ := by
    rw [needs_attach, mergeStacks_eq_totals, totals_map_resolved]
  have hids : t.needs.map Stack.id = (r.needs.map Stack.id).eraseDups := by
    have hid : Stack.id ∘ resolved c = Stack.id := funext (id_resolved c)
    rw [needs_attach, mergeStacks_eq_totals, map_id_totals, map_firstSeen, List.map_map, hid]
  refine ⟨hneeds, hids, ?_, rfl, rfl, ?_, ?_⟩
  · rw [yields_attach]
    rfl
  · exact neededUnits_attach
  · exact attach_attach c r

end RecipePlanner.Extraction

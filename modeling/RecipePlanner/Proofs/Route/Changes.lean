import RecipePlanner.Proofs.Route.Lineage

/-!
# Routes with one node changed

`updateFirst?` changes the first node for an item and leaves everything else in place: what it gives
is `Changed`, and it gives nothing exactly if the item does not occur (`updateFirst?_eq_none_iff`).
A change that keeps a node `Within` what it was, with no new item, no new repetition and no greater
depth, keeps the whole route within what it was (`Changed.within`). Making a choice and clearing a
node are such changes.
-/

namespace RecipePlanner.Route

/-- `new` is `old` with the node for `wanted` that is met first changed by `f`. -/
inductive Changed (f : Route → Route) (wanted : String) : (old new : Route) → Prop where
  | here (choice : Option String) (parts : List Route) :
      Changed f wanted (node wanted choice parts) (f (node wanted choice parts))
  | inPart {item : String} {choice : Option String} {before after : List Route} {old new : Route}
      (hitem : item ≠ wanted) (hbefore : ∀ p ∈ before, wanted ∉ p.items)
      (h : Changed f wanted old new) :
      Changed f wanted (node item choice (before ++ old :: after))
        (node item choice (before ++ new :: after))

/-! ## Where a route is changed -/

section UpdateFirst

variable {f : Route → Route} {wanted : String}

theorem updateIn?_eq_none_iff {ps : List Route} :
    updateIn? f wanted ps = none ↔ ∀ p ∈ ps, updateFirst? f wanted p = none := by
  induction ps with
  | nil => simp [updateIn?]
  | cons p ps ih =>
    rw [updateIn?, List.forall_mem_cons, ← ih]
    cases updateFirst? f wanted p with
    | some q => simp
    | none => simp

/-- Nothing is changed exactly if the item does not occur. -/
theorem updateFirst?_eq_none_iff (r : Route) :
    updateFirst? f wanted r = none ↔ wanted ∉ r.items := by
  induction r using induct with
  | hnode i c ps ih =>
    rw [updateFirst?, not_mem_items_node_iff]
    by_cases hi : i = wanted
    · simp [hi]
    · rw [if_neg hi, Option.map_eq_none_iff, updateIn?_eq_none_iff, and_iff_right hi]
      exact forall₂_congr ih

/-- Among some routes the first one with the item is changed. -/
theorem exists_of_updateIn? {ps qs : List Route} (h : updateIn? f wanted ps = some qs) :
    ∃ before p q after, ps = before ++ p :: after ∧ qs = before ++ q :: after ∧
      (∀ r ∈ before, wanted ∉ r.items) ∧ updateFirst? f wanted p = some q := by
  induction ps generalizing qs with
  | nil => cases h
  | cons p ps ih =>
    rw [updateIn?] at h
    cases hp : updateFirst? f wanted p with
    | some q =>
      rw [hp] at h
      cases h
      exact ⟨[], p, q, ps, rfl, rfl, List.forall_mem_nil _, hp⟩
    | none =>
      rw [hp] at h
      obtain ⟨rs, hrs, rfl⟩ := Option.map_eq_some_iff.1 h
      obtain ⟨before, p', q, after, rfl, rfl, hbefore, hq⟩ := ih hrs
      refine ⟨p :: before, p', q, after, rfl, rfl, ?_, hq⟩
      exact List.forall_mem_cons.2 ⟨(updateFirst?_eq_none_iff p).1 hp, hbefore⟩

theorem changed_of_updateFirst? (old : Route) {new : Route}
    (h : updateFirst? f wanted old = some new) : Changed f wanted old new := by
  induction old using induct generalizing new with
  | hnode i c ps ih =>
    rw [updateFirst?] at h
    split at h
    · next hi =>
      subst hi
      cases h
      exact .here c ps
    · next hi =>
      obtain ⟨qs, hqs, rfl⟩ := Option.map_eq_some_iff.1 h
      obtain ⟨before, p, q, after, rfl, rfl, hbefore, hq⟩ := exists_of_updateIn? hqs
      exact .inPart hi hbefore (ih p (List.mem_append_right _ List.mem_cons_self) hq)

end UpdateFirst

/-! ## The first node for an item -/

section Find

variable {wanted : String}

theorem findIn?_eq_findSome? (ps : List Route) :
    findIn? wanted ps = ps.findSome? (find? wanted) := by
  induction ps with
  | nil => rfl
  | cons p ps ih =>
    rw [findIn?, List.findSome?_cons, ih]
    cases find? wanted p <;> rfl

/-- There is no node for an item exactly if the item does not occur. -/
theorem find?_eq_none_iff (r : Route) : r.find? wanted = none ↔ wanted ∉ r.items := by
  induction r using induct with
  | hnode i c ps ih =>
    rw [find?, not_mem_items_node_iff, findIn?_eq_findSome?]
    by_cases hi : i = wanted
    · simp [hi]
    · rw [if_neg hi, List.findSome?_eq_none_iff, and_iff_right hi]
      exact forall₂_congr ih

theorem find?_of_item_eq {r : Route} (h : r.item = wanted) : r.find? wanted = some r := by
  cases r with
  | node i c ps => exact if_pos h

/-- Below a node for another item the first node is that of the first part with the item. -/
theorem find?_of_part {item : String} {choice : Option String} {before after : List Route}
    {p found : Route} (hitem : item ≠ wanted) (hbefore : ∀ q ∈ before, wanted ∉ q.items)
    (h : p.find? wanted = some found) :
    (node item choice (before ++ p :: after)).find? wanted = some found := by
  have hnone : before.findSome? (find? wanted) = none :=
    List.findSome?_eq_none_iff.2 fun q hq => (find?_eq_none_iff q).2 (hbefore q hq)
  rw [find?, if_neg hitem, findIn?_eq_findSome?, List.findSome?_append, hnone, Option.none_or,
    List.findSome?_cons, h]

end Find

/-! ## Changes that add nothing -/

/-- `new` has no item that `old` has not, repeats none along a lineage unless `old` does and is no
deeper. -/
structure Within (new old : Route) : Prop where
  items : ∀ x ∈ new.items, x ∈ old.items
  lineal : old.Lineal → new.Lineal
  depth : new.depth ≤ old.depth

/-- What holds of all members of a list holds of all with one of them replaced. -/
theorem forall_mem_replace {P : Route → Prop} {before after : List Route} {old new : Route}
    (h : ∀ p ∈ before ++ old :: after, P p) (hnew : P old → P new) :
    ∀ p ∈ before ++ new :: after, P p := by
  obtain ⟨hbefore, hrest⟩ := List.forall_mem_append.1 h
  obtain ⟨hold, hafter⟩ := List.forall_mem_cons.1 hrest
  exact List.forall_mem_append.2 ⟨hbefore, List.forall_mem_cons.2 ⟨hnew hold, hafter⟩⟩

/-- Replacing a part by one within it keeps the node within what it was. -/
theorem Within.node {old new : Route} (h : Within new old) (i : String) (c : Option String)
    (before after : List Route) :
    Within (node i c (before ++ new :: after)) (node i c (before ++ old :: after)) where
  items := by
    intro x hx
    rw [Route.items, List.mem_cons, mem_itemsOfAll_iff] at hx ⊢
    rcases hx with rfl | ⟨p, hp, hxp⟩
    · exact Or.inl rfl
    · refine Or.inr ?_
      rcases List.mem_append.1 hp with hp | hp
      · exact ⟨p, List.mem_append_left _ hp, hxp⟩
      · rcases List.mem_cons.1 hp with rfl | hp
        · exact ⟨old, List.mem_append_right _ List.mem_cons_self, h.items x hxp⟩
        · exact ⟨p, List.mem_append_right _ (List.mem_cons_of_mem _ hp), hxp⟩
  lineal := by
    intro hold
    rw [lineal_node_iff] at hold ⊢
    refine forall_mem_replace hold ?_
    rintro ⟨hi, hlineal⟩
    exact ⟨fun hnew => hi (h.items i hnew), h.lineal hlineal⟩
  depth := by
    -- One less than the depth of the old node bounds its parts, and with them the new part.
    obtain ⟨n, hn⟩ : ∃ n, (Route.node i c (before ++ old :: after)).depth = n + 1 :=
      ⟨_, Nat.add_comm _ _⟩
    have hold : ∀ p ∈ before ++ old :: after, p.depth ≤ n :=
      depth_node_le_iff.1 (Nat.le_of_eq hn)
    rw [hn, depth_node_le_iff]
    exact forall_mem_replace hold fun hdepth => Nat.le_trans h.depth hdepth

section Changed

variable {f : Route → Route} {wanted : String} {old new : Route}

/-- A change within each node stays within the route. -/
theorem Changed.within (h : Changed f wanted old new) (hf : ∀ r, Within (f r) r) :
    Within new old := by
  induction h with
  | here choice parts => exact hf _
  | inPart _ _ _ ih => exact ih.node _ _ _ _

theorem Changed.filled (h : Changed f wanted old new) (hf : ∀ r, r.Filled → (f r).Filled)
    (hold : old.Filled) : new.Filled := by
  induction h with
  | here choice parts => exact hf _ hold
  | inPart _ _ _ ih =>
    obtain ⟨hitem, hchoice, hparts⟩ := filled_node_iff.1 hold
    exact filled_node_iff.2 ⟨hitem, hchoice, forall_mem_replace hparts ih⟩

end Changed

theorem within_withChoice (choice : String) (r : Route) : Within (r.withChoice choice) r := by
  cases r with
  | node i c ps =>
    refine ⟨fun x hx => hx, fun h => ?_, Nat.le_refl _⟩
    exact lineal_node_iff.2 (lineal_node_iff.1 h)

theorem within_cleared (r : Route) : Within r.cleared r := by
  cases r with
  | node i c ps =>
    refine ⟨?_, fun _ => lineal_node_iff.2 (List.forall_mem_nil _), ?_⟩
    · intro x hx
      cases List.mem_singleton.1 hx
      exact List.mem_cons_self
    · exact depth_pos (Route.node i c ps)

theorem filled_withChoice {choice : String} (hchoice : choice ≠ "") {r : Route} (h : r.Filled) :
    (r.withChoice choice).Filled := by
  cases r with
  | node i c ps =>
    obtain ⟨hitem, -, hparts⟩ := filled_node_iff.1 h
    exact filled_node_iff.2 ⟨hitem, fun heq => hchoice (Option.some.inj heq), hparts⟩

theorem filled_cleared {r : Route} (h : r.Filled) : r.cleared.Filled := by
  cases r with
  | node i c ps =>
    exact filled_node_iff.2 ⟨(filled_node_iff.1 h).1, nofun, List.forall_mem_nil _⟩

end RecipePlanner.Route

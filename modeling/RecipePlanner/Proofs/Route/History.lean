import Mathlib.Data.List.Induction
import RecipePlanner.FirstSeen
import RecipePlanner.Keyed
import RecipePlanner.Proofs.Route.Listing

/-!
# Histories of choices

A history is a list of choices made for items one after the other. All that remains of it is the
last choice for each item, with the items in the order in which they were first chosen for
(`selectAll_settled`). The order of the items counts because an item that is new to the route comes
behind the parts that the root has.
-/

namespace RecipePlanner.Route

/-- Items with the choices made for them, from first to last. -/
abbrev History := List (String × String)

/-- The route with the choices of a history made. -/
def selectAll (r : Route) (history : History) : Route :=
  history.foldl (fun r made => r.select made.1 made.2) r

/-- The last choice that a history makes for an item. -/
def lastChoice? (item : String) (history : History) : Option String := history.reverse.lookup item

/-- One choice for each item of a history, the last one, in the order in which the items come
first. -/
def settled (history : History) : History :=
  (firstSeen id (history.map (·.1))).filterMap fun item =>
    (lastChoice? item history).map fun choice => (item, choice)

/-! ## Two choices -/

theorem mem_items_select {r : Route} {x item choice : String} :
    x ∈ (r.select item choice).items ↔ x = item ∨ x ∈ r.items := by
  rw [← map_item_listing, ← map_item_listing, listing_select, mem_map_item_record]

/-- The later of two choices for an item counts. -/
theorem select_select (r : Route) (item choice later : String) :
    (r.select item choice).select item later = r.select item later := by
  apply listing_injective
  rw [listing_select, listing_select, listing_select, record_record]

/-- Choices for different items can be made in either order if one of the items is there. -/
theorem select_comm {r : Route} {i j : String} (hij : i ≠ j) (hi : i ∈ r.items) (c d : String) :
    (r.select i c).select j d = (r.select j d).select i c := by
  apply listing_injective
  rw [← map_item_listing] at hi
  rw [listing_select, listing_select, listing_select, listing_select, record_comm hij hi]

/-! ## The last choice for each item -/

theorem selectAll_cons (r : Route) (item choice : String) (history : History) :
    r.selectAll ((item, choice) :: history) = (r.select item choice).selectAll history := rfl

theorem selectAll_append_singleton (r : Route) (history : History) (item choice : String) :
    r.selectAll (history ++ [(item, choice)]) = (r.selectAll history).select item choice := by
  rw [selectAll, List.foldl_append]
  rfl

/-- A choice for an item that is there can be made before choices for other items. -/
theorem select_selectAll_comm {r : Route} {history : History} {item : String}
    (hother : item ∉ history.map (·.1)) (hitem : item ∈ r.items) (choice : String) :
    (r.selectAll history).select item choice = (r.select item choice).selectAll history := by
  induction history generalizing r with
  | nil => rfl
  | cons made history ih =>
    obtain ⟨i, c⟩ := made
    rw [List.map_cons, List.mem_cons, not_or] at hother
    have hmem : item ∈ (r.select i c).items := mem_items_select.2 (Or.inr hitem)
    rw [selectAll_cons, selectAll_cons, ih hother.2 hmem, select_comm hother.1 hitem]

/-- In a history with one choice for each item, the one for an item can be replaced, or added
behind the others, by choosing again in the end. -/
theorem selectAll_alter (r : Route) (item choice : String) {history : History}
    (hnodup : (history.map (·.1)).Nodup) :
    r.selectAll (Keyed.alter item (fun _ => choice) history) =
      (r.selectAll history).select item choice := by
  induction history generalizing r with
  | nil => rfl
  | cons made history ih =>
    obtain ⟨i, c⟩ := made
    obtain ⟨hi, hnodup⟩ := List.nodup_cons.1 hnodup
    by_cases h : i = item
    · subst h
      have hmem : i ∈ (r.select i c).items := mem_items_select.2 (Or.inl rfl)
      rw [Keyed.alter, if_pos rfl, selectAll_cons, selectAll_cons, select_selectAll_comm hi hmem,
        select_select]
    · rw [Keyed.alter, if_neg h, selectAll_cons, selectAll_cons, ih _ hnodup]

theorem lastChoice?_append_singleton (history : History) (item choice x : String) :
    lastChoice? x (history ++ [(item, choice)]) =
      if x = item then some choice else lastChoice? x history := by
  rw [lastChoice?, List.reverse_append, List.reverse_singleton, List.singleton_append,
    Keyed.lookup_cons]
  rfl

theorem lastChoice?_eq_none_iff {item : String} {history : History} :
    lastChoice? item history = none ↔ item ∉ history.map (·.1) := by
  rw [lastChoice?, Keyed.lookup_eq_none_iff, List.map_reverse, List.mem_reverse]

theorem isSome_lastChoice? {item : String} {history : History}
    (h : item ∈ history.map (·.1)) : (lastChoice? item history).isSome = true := by
  rw [Option.isSome_iff_ne_none]
  exact fun hnone => lastChoice?_eq_none_iff.1 hnone h

/-- A table made of the values that keys have, for keys that all have one. -/
theorem map_fst_filterMap {f : String → Option String} {items : List String}
    (h : ∀ item ∈ items, (f item).isSome = true) :
    (items.filterMap fun item => (f item).map fun choice => (item, choice)).map (·.1) = items := by
  induction items with
  | nil => rfl
  | cons item items ih =>
    obtain ⟨hitem, hitems⟩ := List.forall_mem_cons.1 h
    obtain ⟨choice, hchoice⟩ := Option.isSome_iff_exists.1 hitem
    rw [List.filterMap_cons, hchoice, Option.map_some, List.map_cons, ih hitems]

theorem lookup_filterMap (f : String → Option String) (items : List String) (x : String) :
    (items.filterMap fun item => (f item).map fun choice => (item, choice)).lookup x =
      if x ∈ items then f x else none := by
  induction items with
  | nil => rfl
  | cons item items ih =>
    rw [List.filterMap_cons]
    cases hchoice : f item with
    | none => grind
    | some choice =>
      rw [Option.map_some, Keyed.lookup_cons, ih]
      grind

theorem map_fst_settled (history : History) :
    (settled history).map (·.1) = firstSeen id (history.map (·.1)) :=
  map_fst_filterMap fun _ hitem => isSome_lastChoice? (mem_firstSeen_id.1 hitem)

theorem lookup_settled (history : History) (item : String) :
    (settled history).lookup item = lastChoice? item history := by
  rw [settled, lookup_filterMap]
  split
  · rfl
  · next h => exact (lastChoice?_eq_none_iff.2 fun hitem => h (mem_firstSeen_id.2 hitem)).symm

theorem nodup_map_fst_settled (history : History) : ((settled history).map (·.1)).Nodup := by
  rw [map_fst_settled]
  exact nodup_firstSeen_id

/-- One more choice replaces the one for its item, or comes behind the others. -/
theorem settled_append_singleton (history : History) (item choice : String) :
    settled (history ++ [(item, choice)]) =
      Keyed.alter item (fun _ => choice) (settled history) := by
  refine Keyed.eq_of_lookup ?_ (nodup_map_fst_settled _) fun x => ?_
  · have hmem : item ∈ firstSeen id (history.map (·.1)) ↔ item ∈ history.map (·.1) :=
      mem_firstSeen_id
    rw [map_fst_settled, Keyed.map_fst_alter, map_fst_settled, List.map_append, List.map_singleton,
      firstSeen_append_singleton, List.map_id]
    simp only [hmem, id_eq]
  · rw [lookup_settled, Keyed.lookup_alter, lookup_settled, lastChoice?_append_singleton]

/-- A history leaves what one choice for each of its items leaves, the last one, made in the order
in which the items come first. The later of two choices for an item counts, and choices for
different items can be made in either order as soon as one of the items is there. -/
theorem selectAll_settled (r : Route) :
    (∀ history, r.selectAll history = r.selectAll (settled history)) ∧
    (∀ item choice later, (r.select item choice).select item later = r.select item later) ∧
    ∀ i j, i ≠ j → i ∈ r.items ∨ j ∈ r.items → ∀ c d,
      (r.select i c).select j d = (r.select j d).select i c := by
  refine ⟨fun history => ?_, select_select r, fun i j hij hmem c d => ?_⟩
  · induction history using List.reverseRecOn with
    | nil => rfl
    | append_singleton history made ih =>
      obtain ⟨item, choice⟩ := made
      rw [selectAll_append_singleton, ih, settled_append_singleton,
        selectAll_alter r item choice (nodup_map_fst_settled history)]
  · rcases hmem with hi | hj
    · exact select_comm hij hi c d
    · exact (select_comm (Ne.symm hij) hj d c).symm

/-- Five choices for three items, of which one is new to the route. -/
theorem selectAll_settled_torch :
    let r := node "torch" none [ofItem "stick"]
    let history := [("coal", "mining"), ("stick", "bamboo"), ("coal", "smelting"),
      ("torch", "crafting"), ("stick", "planks")]
    settled history = [("coal", "smelting"), ("stick", "planks"), ("torch", "crafting")] ∧
      r.selectAll history = r.selectAll (settled history) ∧
      (r.select "stick" "bamboo").select "coal" "mining" =
        (r.select "coal" "mining").select "stick" "bamboo" := by
  intro r history
  obtain ⟨hsettled, -, hcomm⟩ := selectAll_settled r
  exact ⟨by decide, hsettled history, hcomm "stick" "coal" (by decide) (by decide) _ _⟩

end RecipePlanner.Route

import RecipePlanner.Proofs.Route.History
import RecipePlanner.Route.Reader

/-!
# Completing a route

A choice reaches one node only, the first for its item. So a history with a choice for every item of
a route completes it exactly if of any two nodes for the same item the later one had a choice before
(`isComplete_selectAll_iff`). An item may occur in several lineages, and then one choice for each
item need not be enough (`not_forall_isComplete_selectAll`).
-/

namespace RecipePlanner.Route

/-- The lines with the choices of a history recorded. -/
def recordAll (ls : List Line) (history : History) : List Line :=
  history.foldl (fun ls made => record made.1 made.2 ls) ls

theorem listing_selectAll (r : Route) (history : History) :
    (r.selectAll history).listing = recordAll r.listing history := by
  induction history generalizing r with
  | nil => rfl
  | cons made history ih =>
    obtain ⟨item, choice⟩ := made
    rw [selectAll_cons, ih, listing_select]
    rfl

theorem lastChoice?_cons (item choice x : String) (history : History) :
    lastChoice? x ((item, choice) :: history) =
      (lastChoice? x history).or (if x = item then some choice else none) := by
  rw [lastChoice?, List.reverse_cons, List.lookup_append, Keyed.lookup_cons]
  rfl

/-- The first line takes the last choice for its item, and choices for other items go on to the
lines behind it. -/
theorem recordAll_cons (l : Line) (ls : List Line) (history : History) :
    recordAll (l :: ls) history =
      { l with choice := (lastChoice? l.item history).or l.choice } ::
        recordAll ls (history.filter (·.1 ≠ l.item)) := by
  induction history generalizing l ls with
  | nil => rfl
  | cons made history ih =>
    obtain ⟨item, choice⟩ := made
    have hstep : recordAll (l :: ls) ((item, choice) :: history) =
        recordAll (record item choice (l :: ls)) history := rfl
    rw [hstep, record, lastChoice?_cons]
    by_cases h : l.item = item
    · rw [if_pos h, ih, if_pos h, List.filter_cons_of_neg (by simp [h]), Option.or_assoc]
      rfl
    · rw [if_neg h, ih, if_neg h, List.filter_cons_of_pos (by simpa using Ne.symm h),
        Option.or_none]
      rfl

theorem isSome_choice_of_mem_record {ls : List Line} (h : ∀ l ∈ ls, l.choice.isSome = true)
    (item choice : String) : ∀ l ∈ record item choice ls, l.choice.isSome = true := by
  induction ls with
  | nil => exact List.forall_mem_singleton.2 rfl
  | cons l ls ih =>
    obtain ⟨hl, hls⟩ := List.forall_mem_cons.1 h
    rw [record]
    split
    · exact List.forall_mem_cons.2 ⟨rfl, hls⟩
    · exact List.forall_mem_cons.2 ⟨hl, ih hls⟩

/-- Where all lines have a choice, they have one after any history. -/
theorem isSome_choice_of_mem_recordAll {ls : List Line} (h : ∀ l ∈ ls, l.choice.isSome = true)
    (history : History) : ∀ l ∈ recordAll ls history, l.choice.isSome = true := by
  induction history generalizing ls with
  | nil => exact h
  | cons made history ih => exact ih (isSome_choice_of_mem_record h made.1 made.2)

/-- All lines have a choice after a history exactly if each had one or is of an item that the
history has a choice for, and each that repeats the item of an earlier line had one. -/
theorem isSome_choice_recordAll_iff (ls : List Line) (history : History) :
    (∀ l ∈ recordAll ls history, l.choice.isSome = true) ↔
      (∀ l ∈ ls, l.choice.isSome = true ∨ l.item ∈ history.map (·.1)) ∧
        ls.Pairwise fun earlier later =>
          earlier.item = later.item → later.choice.isSome = true := by
  induction ls generalizing history with
  | nil =>
    refine iff_of_true ?_ ⟨List.forall_mem_nil _, List.Pairwise.nil⟩
    exact isSome_choice_of_mem_recordAll (List.forall_mem_nil _) history
  | cons l ls ih =>
    have hlast : (lastChoice? l.item history).isSome = true ↔ l.item ∈ history.map (·.1) := by
      rw [Option.isSome_iff_ne_none, ne_eq, lastChoice?_eq_none_iff, not_not]
    -- What goes on to the lines behind this one are the choices for other items.
    have hother : ∀ x, x ∈ (history.filter (·.1 ≠ l.item)).map (·.1) ↔
        x ∈ history.map (·.1) ∧ x ≠ l.item := by
      intro x
      simp only [List.mem_map, List.mem_filter, decide_eq_true_eq]
      grind
    have hbehind : (∀ m ∈ ls, m.choice.isSome = true ∨
          m.item ∈ (history.filter (·.1 ≠ l.item)).map (·.1)) ↔
        (∀ m ∈ ls, m.choice.isSome = true ∨ m.item ∈ history.map (·.1)) ∧
          ∀ m ∈ ls, l.item = m.item → m.choice.isSome = true := by
      rw [← forall₂_and]
      refine forall₂_congr fun m _ => ?_
      rw [hother]
      by_cases hchoice : m.choice.isSome = true <;> simp [hchoice, eq_comm]
    rw [recordAll_cons, List.forall_mem_cons, ih, hbehind, List.forall_mem_cons,
      List.pairwise_cons, Option.isSome_or, Bool.or_eq_true, hlast]
    constructor
    · rintro ⟨hl, ⟨hls, hrepeated⟩, hpairs⟩
      exact ⟨⟨hl.symm, hls⟩, hrepeated, hpairs⟩
    · rintro ⟨⟨hl, hls⟩, hrepeated, hpairs⟩
      exact ⟨hl.symm, ⟨hls, hrepeated⟩, hpairs⟩

theorem mem_insertId_iff {x y : String} {ids : List String} :
    x ∈ insertId y ids ↔ x = y ∨ x ∈ ids := by
  induction ids with
  | nil => simp [insertId]
  | cons z ids ih =>
    rw [insertId]
    cases h : compare y z with
    | lt => simp
    | eq =>
      obtain rfl := Std.LawfulEqOrd.eq_of_compare h
      simp
    | gt => simp only [List.mem_cons, ih, or_left_comm]

/-- The sorted items are those that occur. -/
theorem mem_itemIds_iff {x : String} {r : Route} : x ∈ r.itemIds ↔ x ∈ r.items := by
  rw [itemIds]
  induction r.items with
  | nil => rfl
  | cons y items ih => rw [List.foldr_cons, mem_insertId_iff, ih, List.mem_cons]

/-- Choices for all items of a route, one each and in any order, complete it exactly if of any two
nodes for the same item the later one had a choice before. -/
theorem isComplete_selectAll_iff {r : Route} {history : History}
    (hitems : (history.map (·.1)).Perm r.itemIds) :
    (r.selectAll history).isComplete = true ↔
      r.listing.Pairwise fun earlier later =>
        earlier.item = later.item → later.choice.isSome = true := by
  rw [isComplete_iff_listing, listing_selectAll, isSome_choice_recordAll_iff]
  refine and_iff_right fun l hl => Or.inr ?_
  have hitem : l.item ∈ r.items := by
    rw [← map_item_listing]
    exact List.mem_map_of_mem hl
  exact hitems.mem_iff.2 (mem_itemIds_iff.2 hitem)

/-- The later of two nodes for an ingot has a choice, so one choice for each item is enough. -/
theorem isComplete_selectAll_ingots :
    let r := node "pickaxe" none [ofItem "ingot", node "block" none [chosen "ingot" "smelting"]]
    let history := [("ingot", "crafting"), ("block", "crafting"), ("pickaxe", "crafting")]
    (history.map (·.1)).Perm r.itemIds ∧ (r.selectAll history).isComplete = true := by
  intro r history
  have hitems : (history.map (·.1)).Perm r.itemIds := by decide +kernel
  exact ⟨hitems, (isComplete_selectAll_iff hitems).2 (by decide)⟩

/-- An item that occurs in two lineages keeps its second node without a choice: one choice for each
item does not complete every route. -/
theorem not_forall_isComplete_selectAll :
    ¬ ∀ text r, decode? text = some r → ∀ history, (history.map (·.1)).Perm r.itemIds →
      (r.selectAll history).isComplete = true := by
  intro h
  have hread : decode? "a~b|b" = some (node "a" none [ofItem "b", ofItem "b"]) := by
    decide +kernel
  have hcomplete := h _ _ hread [("a", "x"), ("b", "y")] (by decide +kernel)
  exact absurd hcomplete (by decide)

end RecipePlanner.Route

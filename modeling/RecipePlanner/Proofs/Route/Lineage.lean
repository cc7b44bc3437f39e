import Mathlib.Data.List.Nodup
import RecipePlanner.Route

/-!
# Lineages of a route

The lineages of a route are the lists of items met on the way from the root to a leaf. A route is
`Lineal` if no item repeats in one of its lineages, and `Filled` if no item and no choice is the
empty text. Both are read off a node and its parts (`lineal_node_iff`, `filled_node_iff`), which is
the form that proofs by induction use; `Route.induct` is that induction, with one hypothesis for all
parts of a node.
-/

namespace RecipePlanner.Route

/-! ## Induction and the companions on lists of routes -/

mutual

/-- Induction on a route, with the statement at hand for every part of a node. -/
theorem induct {P : Route → Prop}
    (hnode : ∀ item choice parts, (∀ p ∈ parts, P p) → P (node item choice parts)) :
    ∀ r : Route, P r
  | node item choice parts => hnode item choice parts (inductParts hnode parts)

/-- The companion of `induct` on the parts of a node. -/
theorem inductParts {P : Route → Prop}
    (hnode : ∀ item choice parts, (∀ p ∈ parts, P p) → P (node item choice parts)) :
    ∀ ps : List Route, ∀ p ∈ ps, P p
  | [] => List.forall_mem_nil P
  | p :: ps => List.forall_mem_cons.2 ⟨induct hnode p, inductParts hnode ps⟩

end

theorem itemsOfAll_eq_flatMap (ps : List Route) : itemsOfAll ps = ps.flatMap items := by
  induction ps with
  | nil => rfl
  | cons p ps ih => rw [itemsOfAll, ih, List.flatMap_cons]

theorem mem_itemsOfAll_iff {x : String} {ps : List Route} :
    x ∈ itemsOfAll ps ↔ ∃ p ∈ ps, x ∈ p.items := by
  rw [itemsOfAll_eq_flatMap, List.mem_flatMap]

theorem not_mem_items_node_iff {x i : String} {c : Option String} {ps : List Route} :
    x ∉ (node i c ps).items ↔ i ≠ x ∧ ∀ p ∈ ps, x ∉ p.items := by
  rw [items, List.mem_cons, mem_itemsOfAll_iff, not_or, ne_comm]
  simp only [not_exists, not_and]

/-- Some routes are at most `n` deep exactly if each of them is. -/
theorem depthOfAll_le_iff {n : Nat} {ps : List Route} :
    depthOfAll ps ≤ n ↔ ∀ p ∈ ps, p.depth ≤ n := by
  induction ps with
  | nil => simp [depthOfAll]
  | cons p ps ih => rw [depthOfAll, Nat.max_le, ih, List.forall_mem_cons]

theorem depth_node_le_iff {n : Nat} {i : String} {c : Option String} {ps : List Route} :
    (node i c ps).depth ≤ n + 1 ↔ ∀ p ∈ ps, p.depth ≤ n := by
  rw [depth, Nat.add_comm, Nat.add_le_add_iff_right, depthOfAll_le_iff]

theorem depth_pos (r : Route) : 0 < r.depth := by
  cases r with
  | node i c ps =>
    rw [depth]
    omega

/-! ## Lineages -/

mutual

/-- The lists of items from the root to each leaf. -/
def lineages : Route → List (List String)
  | node i _ [] => [[i]]
  | node i _ (p :: ps) => (lineagesOfAll (p :: ps)).map (i :: ·)

/-- The lineages of some routes. -/
def lineagesOfAll : List Route → List (List String)
  | [] => []
  | p :: ps => lineages p ++ lineagesOfAll ps

end

mutual

/-- The choices made, each node before what is below it. -/
def choices : Route → List String
  | node _ c ps => c.toList ++ choicesOfAll ps

/-- The choices made in some routes. -/
def choicesOfAll : List Route → List String
  | [] => []
  | p :: ps => choices p ++ choicesOfAll ps

end

/-- No item repeats on the way from the root to a leaf. -/
def Lineal (r : Route) : Prop := ∀ l ∈ r.lineages, l.Nodup

/-- No item and no choice is the empty text. -/
def Filled (r : Route) : Prop := (∀ i ∈ r.items, i ≠ "") ∧ ∀ c ∈ r.choices, c ≠ ""

instance (r : Route) : Decidable r.Lineal := inferInstanceAs (Decidable (∀ l ∈ _, _))

instance (r : Route) : Decidable r.Filled := inferInstanceAs (Decidable (_ ∧ _))

theorem mem_lineagesOfAll_iff {l : List String} {ps : List Route} :
    l ∈ lineagesOfAll ps ↔ ∃ p ∈ ps, l ∈ p.lineages := by
  induction ps with
  | nil => simp [lineagesOfAll]
  | cons p ps ih => rw [lineagesOfAll, List.mem_append, ih, List.exists_mem_cons_iff]

theorem mem_choicesOfAll_iff {c : String} {ps : List Route} :
    c ∈ choicesOfAll ps ↔ ∃ p ∈ ps, c ∈ p.choices := by
  induction ps with
  | nil => simp [choicesOfAll]
  | cons p ps ih => rw [choicesOfAll, List.mem_append, ih, List.exists_mem_cons_iff]

/-- A lineage of a node is the item followed by a lineage of a part, if there are parts. -/
theorem mem_lineages_node_iff {l : List String} {i : String} {c : Option String}
    {ps : List Route} :
    l ∈ (node i c ps).lineages ↔
      (ps = [] ∧ l = [i]) ∨ ∃ p ∈ ps, ∃ m ∈ p.lineages, l = i :: m := by
  cases ps with
  | nil => simp [lineages]
  | cons p ps =>
    simp only [lineages, List.mem_map, mem_lineagesOfAll_iff]
    constructor
    · rintro ⟨m, ⟨q, hq, hm⟩, rfl⟩
      exact Or.inr ⟨q, hq, m, hm, rfl⟩
    · rintro (⟨h, -⟩ | ⟨q, hq, m, hm, rfl⟩)
      · exact absurd h (List.cons_ne_nil p ps)
      · exact ⟨m, ⟨q, hq, hm⟩, rfl⟩

/-- Every route has a lineage, and it starts with the item at the root. -/
theorem exists_cons_mem_lineages (i : String) (c : Option String) (ps : List Route) :
    ∃ m, i :: m ∈ (node i c ps).lineages := by
  cases ps with
  | nil => exact ⟨[], List.mem_singleton_self [i]⟩
  | cons p ps =>
    obtain ⟨j, d, qs⟩ := p
    obtain ⟨m, hm⟩ := exists_cons_mem_lineages j d qs
    exact ⟨j :: m, mem_lineages_node_iff.2 (Or.inr ⟨_, List.mem_cons_self, _, hm, rfl⟩)⟩

/-- The items of a route are those of its lineages. -/
theorem mem_items_iff {x : String} (r : Route) : x ∈ r.items ↔ ∃ l ∈ r.lineages, x ∈ l := by
  induction r using induct with
  | hnode i c ps ih =>
    rw [items, List.mem_cons, mem_itemsOfAll_iff]
    constructor
    · rintro (rfl | ⟨p, hp, hx⟩)
      · obtain ⟨m, hm⟩ := exists_cons_mem_lineages x c ps
        exact ⟨x :: m, hm, List.mem_cons_self⟩
      · obtain ⟨m, hm, hxm⟩ := (ih p hp).1 hx
        exact ⟨i :: m, mem_lineages_node_iff.2 (Or.inr ⟨p, hp, m, hm, rfl⟩),
          List.mem_cons_of_mem i hxm⟩
    · rintro ⟨l, hl, hx⟩
      rcases mem_lineages_node_iff.1 hl with ⟨-, rfl⟩ | ⟨p, hp, m, hm, rfl⟩
      · exact Or.inl (List.mem_singleton.1 hx)
      · rcases List.mem_cons.1 hx with rfl | hxm
        · exact Or.inl rfl
        · exact Or.inr ⟨p, hp, (ih p hp).2 ⟨m, hm, hxm⟩⟩

/-- No item repeats in a lineage of a node exactly if its own item does not occur below it and the
same holds of its parts. -/
theorem lineal_node_iff {i : String} {c : Option String} {ps : List Route} :
    (node i c ps).Lineal ↔ ∀ p ∈ ps, i ∉ p.items ∧ p.Lineal := by
  constructor
  · -- A lineage of the part that held the item would hold it twice with the item in front.
    intro h p hp
    have hcons : ∀ m ∈ p.lineages, (i :: m).Nodup := fun m hm =>
      h (i :: m) (mem_lineages_node_iff.2 (Or.inr ⟨p, hp, m, hm, rfl⟩))
    refine ⟨fun hi => ?_, fun m hm => (List.nodup_cons.1 (hcons m hm)).2⟩
    obtain ⟨m, hm, him⟩ := (mem_items_iff p).1 hi
    exact (List.nodup_cons.1 (hcons m hm)).1 him
  · intro h l hl
    rcases mem_lineages_node_iff.1 hl with ⟨-, rfl⟩ | ⟨p, hp, m, hm, rfl⟩
    · exact List.nodup_singleton i
    · obtain ⟨hi, hp'⟩ := h p hp
      exact List.nodup_cons.2 ⟨fun him => hi ((mem_items_iff p).2 ⟨m, hm, him⟩), hp' m hm⟩

/-- The texts of a node are its item, its choice and the texts of its parts. -/
theorem filled_node_iff {i : String} {c : Option String} {ps : List Route} :
    (node i c ps).Filled ↔ i ≠ "" ∧ c ≠ some "" ∧ ∀ p ∈ ps, p.Filled := by
  have hc : (∀ x ∈ c.toList, x ≠ "") ↔ c ≠ some "" := by
    cases c <;> simp
  simp only [Filled, items, choices, List.forall_mem_cons, List.forall_mem_append, hc,
    mem_itemsOfAll_iff, mem_choicesOfAll_iff]
  grind

end RecipePlanner.Route

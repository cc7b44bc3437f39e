import Mathlib.Algebra.BigOperators.Group.List.Lemmas
import Mathlib.Algebra.GroupWithZero.Nat
import Mathlib.Data.List.Dedup
import RecipePlanner.Proofs.Document.Ingredients

/-!
# The units a document asks for

A document asks for as many units as its pattern has filled cells, or for one of each thing it names
(`askedUnits`). They are the units of its ingredients, each of which asks for at least one
(`units_of_ingredients?`).
-/

namespace RecipePlanner.Document

/-- The units that a document of some layout asks for. -/
def askedUnits (doc : Json) : Layout → Option Nat
  | .shaped => (rows? doc).map fun rows => (filledCells rows).length
  | .shapeless => ((doc.field? "ingredients").bind Json.list?).map List.length
  | .single _ => some 1
  | .smithing => some (if (doc.field? "template").isSome then 3 else 2)
  | .transmute => some 2
  | .cosmetic => none
  | .unrecognized => none

/-- Every cell is one of those of its symbol. -/
theorem sum_count_firstSeen (cells : List Char) :
    ((firstSeen id cells).map (cells.count ·)).sum = cells.length := by
  have hperm : (firstSeen id cells).Perm cells.dedup := by
    refine (List.perm_ext_iff_of_nodup nodup_firstSeen_id cells.nodup_dedup).2 fun cell => ?_
    rw [mem_firstSeen_id, List.mem_dedup]
  rw [(hperm.map _).sum_eq, List.sum_map_count_dedup_eq_length]

theorem map_units_of_mapM {α : Type} {find : α → Option Json} {units : α → Nat} {xs : List α}
    {es : List Ingredient}
    (h : (xs.mapM fun x => (find x).map (Ingredient.mk · (units x))) = some es) :
    es.map Ingredient.units = xs.map units := by
  rw [Outcome.mapM_eq_some_iff] at h
  induction xs generalizing es with
  | nil =>
    cases es with
    | nil => rfl
    | cons e es => cases h
  | cons x xs ih =>
    cases es with
    | nil => cases h
    | cons e es =>
      rw [List.map_cons, List.map_cons, List.cons.injEq] at h
      obtain ⟨v, -, rfl⟩ := Option.map_eq_some_iff.1 h.1
      rw [List.map_cons, List.map_cons, ih h.2]

theorem units_pos_of_map {α : Type} {units : α → Nat} {xs : List α} {es : List Ingredient}
    (hmap : es.map Ingredient.units = xs.map units) (hpos : ∀ x ∈ xs, 0 < units x) :
    ∀ e ∈ es, 0 < e.units := by
  intro e he
  have hmem : e.units ∈ es.map Ingredient.units := List.mem_map_of_mem he
  rw [hmap] at hmem
  obtain ⟨x, hx, hunits⟩ := List.mem_map.1 hmem
  exact hunits ▸ hpos x hx

/-- What is asked for one unit each. -/
theorem units_of_ones {α : Type} {xs : List α} {es : List Ingredient}
    (hmap : es.map Ingredient.units = xs.map fun _ => 1) :
    (es.map Ingredient.units).sum = xs.length ∧ ∀ e ∈ es, 0 < e.units := by
  refine ⟨?_, units_pos_of_map hmap fun _ _ => Nat.one_pos⟩
  rw [hmap, List.map_const', List.sum_replicate_nat, Nat.mul_one]

theorem units_of_fieldIngredients? {doc : Json} {fields : List String} {es : List Ingredient}
    (h : fieldIngredients? doc fields = some es) :
    (es.map Ingredient.units).sum = fields.length ∧ ∀ e ∈ es, 0 < e.units :=
  units_of_ones (map_units_of_mapM h)

/-- The ingredients of a document ask for the units that the document asks for, each for at least
one. -/
theorem units_of_ingredients? {doc : Json} {layout : Layout} {es : List Ingredient}
    (h : ingredients? doc layout = some es) :
    askedUnits doc layout = some (es.map Ingredient.units).sum ∧ ∀ e ∈ es, 0 < e.units := by
  cases layout with
  | shaped =>
    obtain ⟨rows, hrows, key, -, hes⟩ := ingredients?_shaped_eq_some_iff.1 h
    have hmap := map_units_of_mapM hes
    -- Each symbol asks for its cells, of which it has one where it was first seen.
    constructor
    · rw [askedUnits, hrows, hmap, sum_count_firstSeen, Option.map_some]
    · refine units_pos_of_map hmap fun symbol hsymbol => ?_
      exact List.count_pos_iff.2 (mem_firstSeen_id.1 hsymbol)
  | shapeless =>
    rw [ingredients?] at h
    obtain ⟨items, hitems, rfl⟩ := Option.map_eq_some_iff.1 h
    have hones : (items.map (Ingredient.mk · 1)).map Ingredient.units = items.map fun _ => 1 := by
      rw [List.map_map]
      rfl
    obtain ⟨hsum, hpos⟩ := units_of_ones hones
    rw [askedUnits, hitems, hsum]
    exact ⟨rfl, hpos⟩
  | single method =>
    rw [ingredients?] at h
    obtain ⟨hsum, hpos⟩ := units_of_fieldIngredients? h
    rw [askedUnits, hsum]
    exact ⟨rfl, hpos⟩
  | smithing =>
    rw [ingredients?] at h
    obtain ⟨hsum, hpos⟩ := units_of_fieldIngredients? h
    rw [askedUnits, hsum, smithingFields]
    refine ⟨?_, hpos⟩
    split <;> rfl
  | transmute =>
    rw [ingredients?] at h
    obtain ⟨hsum, hpos⟩ := units_of_fieldIngredients? h
    rw [askedUnits, hsum]
    exact ⟨rfl, hpos⟩
  | cosmetic => cases h
  | unrecognized => cases h

end RecipePlanner.Document

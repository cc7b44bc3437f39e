import Mathlib.Algebra.BigOperators.Group.List.Basic
import Mathlib.Algebra.GroupWithZero.Nat
import Mathlib.Data.List.Forall2
import RecipePlanner.Document.Combination
import RecipePlanner.Proofs.InTurn

/-!
# Picking one of each

A pick takes its first element from the first list and goes on with a pick of the other lists. Making
choices list by list, each list extending the choices made before, leads to the same ones in the same
order (`foldl_extendAll`), so all that is said of combinations is shown for picks.

The number of picks is the product of the lengths, but it is told only if the partial products on the
way to it fit (`boundedProduct?_eq`). Where no list is empty that makes no difference and the limit on
combinations is one on the product (`combinations_eq_ok_iff`, `combinations_eq_error_iff`). An empty
list makes the product zero, and yet the lists are refused if a partial product in front of it does
not fit (`combinations_up_to_overflow`).

A pick takes one element of each list (`mem_picks_iff`). Where no list repeats an element, no pick is
repeated (`nodup_picks`). All picks are read off the lists at all places (`map_picks_eq_map_places`),
and the places ascend in lexicographic order (`pairwise_lt_places`).
-/

namespace RecipePlanner.Document

variable {α : Type} {slots : List (List α)}

/-! ## One list after the other -/

/-- All ways to take one element of each list. A choice from an earlier list varies more slowly. -/
def picks : List (List α) → List (List α)
  | [] => [[]]
  | slot :: slots => slot.flatMap fun x => (picks slots).map (x :: ·)

/-- Extending choices by some lists puts every pick of the lists behind every choice. -/
theorem foldl_extendAll (slots choices : List (List α)) :
    slots.foldl extendAll choices =
      choices.flatMap fun choice => (picks slots).map (choice ++ ·) := by
  induction slots generalizing choices with
  | nil =>
    simp only [List.foldl_nil, picks, List.map_singleton, List.append_nil, List.flatMap_singleton']
  | cons slot slots ih =>
    simp only [List.foldl_cons, ih, extendAll, picks, List.flatMap_assoc, List.flatMap_map,
      List.map_flatMap, List.map_map, Function.comp_def, List.append_assoc, List.singleton_append]

/-- Extended by all lists, the choice of nothing becomes the picks. -/
theorem foldl_extendAll_nil (slots : List (List α)) : slots.foldl extendAll [[]] = picks slots := by
  rw [foldl_extendAll, List.flatMap_singleton]
  exact List.map_id _

/-! ## Their number -/

/-- Every product of the first few numbers fits 64 bits. -/
def PartialsFit (ns : List Nat) : Prop := ∀ k, (ns.take k).prod ≤ Word.max64

instance (ns : List Nat) : Decidable (PartialsFit ns) :=
  decidable_of_iff (∀ k < ns.length + 1, (ns.take k).prod ≤ Word.max64) <| by
    refine ⟨fun h k => ?_, fun h k _ => h k⟩
    rcases Nat.lt_or_ge k (ns.length + 1) with hk | hk
    · exact h k hk
    · -- Beyond the end of the list nothing is multiplied any more.
      rw [List.take_of_length_le (Nat.le_of_succ_le hk), ← List.take_length (l := ns)]
      exact h ns.length (Nat.lt_succ_self _)

/-- The step of the bounded product. -/
def timesWithin (total n : Nat) : Option Nat :=
  if total * n ≤ Word.max64 then some (total * n) else none

/-- A product is told if it is one and every partial product on the way to it fits. -/
theorem foldlM_timesWithin_eq_some_iff {ns : List Nat} {total n : Nat} (h : total ≤ Word.max64) :
    ns.foldlM timesWithin total = some n ↔
      n = total * ns.prod ∧ ∀ k, total * (ns.take k).prod ≤ Word.max64 := by
  induction ns generalizing total with
  | nil => simp [h, eq_comm]
  | cons m ns ih =>
    rw [List.foldlM_cons, timesWithin, List.prod_cons, ← Nat.mul_assoc]
    -- The first partial product is the number to start from, the others start with the next one.
    have hpartials : (∀ k, total * ((m :: ns).take k).prod ≤ Word.max64) ↔
        ∀ k, total * m * (ns.take k).prod ≤ Word.max64 := by
      refine ⟨fun hall k => ?_, fun hall k => ?_⟩
      · have hk := hall (k + 1)
        rwa [List.take_succ_cons, List.prod_cons, ← Nat.mul_assoc] at hk
      · cases k with
        | zero => rwa [List.take_zero, List.prod_nil, Nat.mul_one]
        | succ k =>
          rw [List.take_succ_cons, List.prod_cons, ← Nat.mul_assoc]
          exact hall k
    rw [hpartials]
    by_cases hm : total * m ≤ Word.max64
    · rw [if_pos hm]
      exact ih hm
    · rw [if_neg hm]
      refine ⟨nofun, fun hall => absurd ?_ hm⟩
      have hzero := hall.2 0
      rwa [List.take_zero, List.prod_nil, Nat.mul_one] at hzero

theorem boundedProduct?_eq (ns : List Nat) :
    boundedProduct? ns = if PartialsFit ns then some ns.prod else none := by
  have hiff : ∀ n, boundedProduct? ns = some n ↔ n = ns.prod ∧ PartialsFit ns := by
    intro n
    have hstep := @foldlM_timesWithin_eq_some_iff ns 1 n (by decide)
    simp only [Nat.one_mul] at hstep
    exact hstep
  split
  · next h => exact (hiff _).2 ⟨rfl, h⟩
  · next h =>
    apply Option.eq_none_iff_forall_ne_some.2
    intro n hn
    exact h ((hiff n).1 hn).2

theorem length_picks_eq_prod (slots : List (List α)) :
    (picks slots).length = (slots.map List.length).prod := by
  induction slots with
  | nil => rfl
  | cons slot slots ih =>
    simp only [picks, List.length_flatMap, List.length_map, List.map_const']
    rw [List.sum_replicate_nat, ih, List.map_cons, List.prod_cons]

/-- The combinations are the picks, unless there are too many of them or a partial product of the
lengths does not fit. -/
theorem combinations_eq (slots : List (List α)) :
    combinations slots =
      if PartialsFit (slots.map List.length) then
        if maxCombinations < (slots.map List.length).prod then
          .error (.tooManyCombinations (slots.map List.length).prod)
        else .ok (picks slots)
      else .error (.tooManyCombinations Word.max64) := by
  rw [combinations, countPicks, boundedProduct?_eq, foldl_extendAll_nil]
  split
  · rw [Option.getD_some]
  · exact if_pos (by decide)

section Filled

variable (hfilled : ∀ slot ∈ slots, slot ≠ [])

include hfilled

theorem length_pos_of_filled : ∀ n ∈ slots.map List.length, 0 < n := by
  intro n hn
  obtain ⟨slot, hslot, rfl⟩ := List.mem_map.1 hn
  exact List.length_pos_iff.2 (hfilled slot hslot)

/-- No factor that is not zero takes a partial product back below the bound. -/
theorem max64_lt_prod_of_filled (h : ¬ PartialsFit (slots.map List.length)) :
    Word.max64 < (slots.map List.length).prod := by
  obtain ⟨k, hk⟩ := not_forall.1 h
  have hpos : 0 < ((slots.map List.length).drop k).prod :=
    List.prod_pos_iff_forall_pos_nat.2 fun n hn =>
      length_pos_of_filled hfilled n (List.mem_of_mem_drop hn)
  rw [← List.prod_take_mul_prod_drop _ k]
  exact Nat.lt_of_lt_of_le (Nat.lt_of_not_le hk) (Nat.le_mul_of_pos_right _ hpos)

/-- Where all lists have elements, partial products need no attention of their own: one that does
not fit makes the whole product exceed the limit. -/
theorem combinations_eq_of_filled :
    combinations slots = .ok (picks slots) ∧ (slots.map List.length).prod ≤ maxCombinations ∨
      (∃ count, combinations slots = .error (.tooManyCombinations count)) ∧
        maxCombinations < (slots.map List.length).prod := by
  rw [combinations_eq]
  split
  · split
    · next h => exact Or.inr ⟨⟨_, rfl⟩, h⟩
    · next h => exact Or.inl ⟨rfl, Nat.le_of_not_lt h⟩
  · next h =>
    exact Or.inr ⟨⟨_, rfl⟩, Nat.lt_trans (by decide) (max64_lt_prod_of_filled hfilled h)⟩

theorem combinations_eq_error_iff :
    (∃ count, combinations slots = .error (.tooManyCombinations count)) ↔
      maxCombinations < (slots.map List.length).prod := by
  rcases combinations_eq_of_filled hfilled with ⟨hok, hle⟩ | ⟨herror, hlt⟩
  · rw [hok]
    exact iff_of_false nofun (Nat.not_lt.2 hle)
  · exact iff_of_true herror hlt

theorem combinations_eq_ok_iff {choices : List (List α)} :
    combinations slots = .ok choices ↔
      (slots.map List.length).prod ≤ maxCombinations ∧ picks slots = choices := by
  rcases combinations_eq_of_filled hfilled with ⟨hok, hle⟩ | ⟨⟨count, herror⟩, hlt⟩
  · rw [hok, Except.ok.injEq, and_iff_right hle]
  · rw [herror]
    exact iff_of_false nofun fun h => Nat.not_lt.2 h.1 hlt

end Filled

/-! ## What they are -/

theorem mem_picks_iff {pick : List α} : pick ∈ picks slots ↔ List.Forall₂ (· ∈ ·) pick slots := by
  induction slots generalizing pick with
  | nil => rw [picks, List.mem_singleton, List.forall₂_nil_right_iff]
  | cons slot slots ih =>
    rw [picks, List.forall₂_cons_right_iff]
    simp only [List.mem_flatMap, List.mem_map, ih]
    constructor
    · rintro ⟨x, hx, rest, hrest, rfl⟩
      exact ⟨x, rest, hx, hrest, rfl⟩
    · rintro ⟨x, rest, hx, hrest, rfl⟩
      exact ⟨x, hx, rest, hrest, rfl⟩

theorem exists_mem_of_mem_picks {pick : List α} (h : pick ∈ picks slots) {x : α} (hx : x ∈ pick) :
    ∃ slot ∈ slots, x ∈ slot := by
  rw [mem_picks_iff] at h
  induction h with
  | nil => cases hx
  | cons hmem _ ih =>
    rcases List.mem_cons.1 hx with rfl | hx
    · exact ⟨_, List.mem_cons_self, hmem⟩
    · obtain ⟨slot, hslot, hin⟩ := ih hx
      exact ⟨slot, List.mem_cons_of_mem _ hslot, hin⟩

/-- A relation between lists that is decided by the first elements or, where these are the same, by
the rest, holds along the picks if the one between elements does along each list. -/
theorem pairwise_picks {R : α → α → Prop} {S : List α → List α → Prop}
    (hfirst : ∀ {x y} xs ys, R x y → S (x :: xs) (y :: ys))
    (hrest : ∀ x {xs ys}, S xs ys → S (x :: xs) (x :: ys))
    (h : ∀ slot ∈ slots, slot.Pairwise R) : (picks slots).Pairwise S := by
  induction slots with
  | nil => exact List.pairwise_singleton S []
  | cons slot slots ih =>
    obtain ⟨hslot, hslots⟩ := List.forall_mem_cons.1 h
    rw [picks]
    refine List.pairwise_flatMap.2 ⟨fun x _ => ?_, hslot.imp ?_⟩
    · exact List.pairwise_map.2 ((ih hslots).imp (hrest x))
    · intro x y hxy _ hx _ hy
      obtain ⟨xs, -, rfl⟩ := List.mem_map.1 hx
      obtain ⟨ys, -, rfl⟩ := List.mem_map.1 hy
      exact hfirst xs ys hxy

/-- Picks differ where no list repeats an element. -/
theorem nodup_picks (h : ∀ slot ∈ slots, slot.Nodup) : (picks slots).Nodup :=
  pairwise_picks (fun _ _ hne heq => hne (List.cons.inj heq).1)
    (fun _ _ _ hne heq => hne (List.cons.inj heq).2) h

/-! ## Where they stand -/

/-- All ways to name a place in each of some lists, of which the lengths are given. -/
def places (sizes : List Nat) : List (List Nat) := picks (sizes.map List.range)

theorem places_cons (size : Nat) (sizes : List Nat) :
    places (size :: sizes) = (List.range size).flatMap fun i => (places sizes).map (i :: ·) := by
  rw [places, List.map_cons, picks, places]

theorem mem_places_iff {sizes place : List Nat} :
    place ∈ places sizes ↔ List.Forall₂ (· < ·) place sizes := by
  rw [places, mem_picks_iff, List.forall₂_map_right_iff]
  simp only [List.mem_range]

theorem pairwise_lt_places (sizes : List Nat) : (places sizes).Pairwise (· < ·) := by
  have hsizes : ∀ slot ∈ sizes.map List.range, slot.Pairwise (· < ·) := by
    intro slot hslot
    obtain ⟨size, -, rfl⟩ := List.mem_map.1 hslot
    exact List.pairwise_lt_range
  exact pairwise_picks (fun _ _ h => List.cons_lt_cons_iff.2 (Or.inl h))
    (fun _ _ _ h => List.cons_lt_cons_iff.2 (Or.inr ⟨rfl, h⟩)) hsizes

/-- What is picked is read off the lists at the places, in whatever way the elements of a list are
read at its places. -/
theorem map_picks_eq_map_places {β : Type} {f : α → β} {read : List α → Nat → β}
    (hread : ∀ slot, (List.range slot.length).map (read slot) = slot.map f)
    (slots : List (List α)) :
    (picks slots).map (List.map f) =
      (places (slots.map List.length)).map (slots.zipWith read) := by
  induction slots with
  | nil => rfl
  | cons slot slots ih =>
    calc (picks (slot :: slots)).map (List.map f)
        = (slot.map f).flatMap fun y => ((picks slots).map (List.map f)).map (y :: ·) := by
          simp only [picks, List.map_flatMap, List.flatMap_map, List.map_map, Function.comp_def,
            List.map_cons]
      _ = ((List.range slot.length).map (read slot)).flatMap fun y =>
            ((places (slots.map List.length)).map (slots.zipWith read)).map (y :: ·) := by
          rw [hread, ih]
      _ = (places ((slot :: slots).map List.length)).map ((slot :: slots).zipWith read) := by
          simp only [List.map_cons, places_cons, List.map_flatMap, List.flatMap_map, List.map_map,
            Function.comp_def, List.zipWith_cons_cons]

theorem map_getD_range (fill : α) (xs : List α) :
    (List.range xs.length).map (xs.getD · fill) = xs.map id := by
  refine List.ext_getElem (by simp) fun i hi _ => ?_
  rw [List.length_map, List.length_range] at hi
  rw [List.getElem_map, List.getElem_map, List.getElem_range, List.getD_eq_getElem?_getD,
    List.getElem?_eq_getElem hi, Option.getD_some, id]

/-- The picks are read off the lists at the places. -/
theorem picks_eq_map_places (fill : α) (slots : List (List α)) :
    picks slots =
      (places (slots.map List.length)).map fun place =>
        slots.zipWith (fun slot i => slot.getD i fill) place := by
  have h := map_picks_eq_map_places (map_getD_range fill) slots
  rwa [List.map_id_fun, List.map_id] at h

/-! ## All of them -/

/-- Lists are refused exactly if the product of their lengths exceeds the limit, but for lists of
which one is empty: their product is zero, and yet they are refused if a partial product does not
fit. Where the partial products fit and the product keeps to the limit, all ways to name a place in
each list are taken, in lexicographic order and as many as the product says. Else there are too many
combinations: as many as the product, or the largest number of 64 bits if a partial product does not
fit. -/
theorem combinations_up_to_overflow (slots : List (List α)) :
    ((∃ count, combinations slots = .error (.tooManyCombinations count)) ↔
      maxCombinations < (slots.map List.length).prod ∨
        [] ∈ slots ∧ ¬ PartialsFit (slots.map List.length)) ∧
    let sizes := slots.map List.length
    (PartialsFit sizes ∧ sizes.prod ≤ maxCombinations ∧
        ∃ choices : List (List α), ∃ picked : List (List Nat),
          combinations slots = .ok choices ∧ choices.length = sizes.prod ∧
          picked.Pairwise (· < ·) ∧
          (∀ place, place ∈ picked ↔ List.Forall₂ (· < ·) place sizes) ∧
          choices.map (List.map some) = picked.map (slots.zipWith fun slot i => slot[i]?)) ∨
      (PartialsFit sizes ∧ maxCombinations < sizes.prod ∧
        combinations slots = .error (.tooManyCombinations sizes.prod)) ∨
      (¬ PartialsFit sizes ∧
        combinations slots = .error (.tooManyCombinations Word.max64)) := by
  rw [combinations_eq]
  by_cases hfit : PartialsFit (slots.map List.length)
  · rw [if_pos hfit]
    by_cases hmany : maxCombinations < (slots.map List.length).prod
    · rw [if_pos hmany]
      exact ⟨iff_of_true ⟨_, rfl⟩ (Or.inl hmany), Or.inr (Or.inl ⟨hfit, hmany, rfl⟩)⟩
    · rw [if_neg hmany]
      refine ⟨iff_of_false nofun (not_or.2 ⟨hmany, fun h => h.2 hfit⟩), Or.inl ⟨hfit,
        Nat.le_of_not_lt hmany, picks slots, places (slots.map List.length), rfl,
        length_picks_eq_prod slots, pairwise_lt_places _, fun _ => mem_places_iff, ?_⟩⟩
      exact map_picks_eq_map_places map_getElem?_range slots
  · rw [if_neg hfit]
    refine ⟨iff_of_true ⟨_, rfl⟩ ?_, Or.inr (Or.inr ⟨hfit, rfl⟩)⟩
    by_cases hempty : [] ∈ slots
    · exact Or.inr ⟨hempty, hfit⟩
    · have hfilled : ∀ slot ∈ slots, slot ≠ [] := fun slot hslot heq => hempty (heq ▸ hslot)
      exact Or.inl (Nat.lt_trans (by decide) (max64_lt_prod_of_filled hfilled hfit))

/-- Sixty-four lists of two and an empty one behind them: there is nothing to pick, and still the
lists are refused. With the empty list in front they are not. -/
theorem combinations_empty_behind_overflow :
    let pairs := List.replicate 64 ["oak", "birch"]
    ((pairs ++ [[]]).map List.length).prod ≤ maxCombinations ∧
      combinations (pairs ++ [[]]) = .error (.tooManyCombinations Word.max64) ∧
      combinations ([] :: pairs) = .ok [] := by
  decide

end RecipePlanner.Document

import Mathlib.Data.List.Basic
import Mathlib.Data.List.Induction
import Mathlib.Data.List.Perm.Basic
import RecipePlanner.FirstSeen

/-!
# Filtering by several tests in turn

`inTurn passes is xs` are the elements of `xs` that pass one of the tests `passes i`, those that pass
the first test in front, then of the others those that pass the second, and so on. It is the plain
filter in another order (`inTurn_perm`). The same list comes from asking each test for the places of
the elements that pass it and keeping the first mention of each place (`firstSeen_flatMap_places`).
-/

namespace RecipePlanner

variable {ι α β : Type}

/-- The elements that pass one of some tests, ordered by the first test that they pass; those with
the same first test keep their order. -/
def inTurn (passes : ι → α → Bool) (is : List ι) (xs : List α) : List α :=
  (List.range is.length).flatMap fun k => xs.filter fun x => is.findIdx (passes · x) = k

/-- The places of the elements that pass a test. -/
def places (passes : α → Bool) (xs : List α) : List Nat :=
  (List.range xs.length).filter fun k => xs[k]?.any passes

theorem inTurn_nil (passes : ι → α → Bool) (xs : List α) : inTurn passes [] xs = [] := rfl

/-- What passes the first test stands in front and is out of the running for the other tests. -/
theorem inTurn_cons (passes : ι → α → Bool) (i : ι) (is : List ι) (xs : List α) :
    inTurn passes (i :: is) xs =
      xs.filter (passes i) ++ inTurn passes is (xs.filter (!passes i ·)) := by
  have hfirst : ∀ x, decide ((i :: is).findIdx (passes · x) = 0) = passes i x := by
    intro x
    cases h : passes i x <;> simp [List.findIdx_cons, h]
  have hlater : ∀ k x, decide ((i :: is).findIdx (passes · x) = k + 1) =
      (decide (is.findIdx (passes · x) = k) && !passes i x) := by
    intro k x
    cases h : passes i x <;> simp [List.findIdx_cons, h]
  simp only [inTurn, List.length_cons, List.range_succ_eq_map, List.flatMap_cons, List.flatMap_map,
    List.filter_filter, hfirst, hlater, Nat.succ_eq_add_one]

theorem inTurn_map (passes : ι → α → Bool) (is : List ι) (f : β → α) (xs : List β) :
    inTurn passes is (xs.map f) = (inTurn (fun i x => passes i (f x)) is xs).map f := by
  simp only [inTurn, List.map_flatMap, List.filter_map, Function.comp_def]

/-- Each element that passes one of the tests is listed as often as it is given. -/
theorem inTurn_perm (passes : ι → α → Bool) (is : List ι) (xs : List α) :
    (inTurn passes is xs).Perm (xs.filter fun x => is.any (passes · x)) := by
  induction is generalizing xs with
  | nil =>
    rw [inTurn_nil]
    simp
  | cons i is ih =>
    -- The elements that pass one of the tests, cut into those that pass the first and the others.
    have hfirst : (xs.filter fun x => (i :: is).any (passes · x)).filter (passes i) =
        xs.filter (passes i) := by
      rw [List.filter_filter]
      apply List.filter_congr
      intro x _
      cases h : passes i x <;> simp [h]
    have hlater : (xs.filter fun x => (i :: is).any (passes · x)).filter (!passes i ·) =
        (xs.filter (!passes i ·)).filter fun x => is.any (passes · x) := by
      rw [List.filter_filter, List.filter_filter]
      apply List.filter_congr
      intro x _
      cases h : passes i x <;> simp [h]
    have hcut := List.filter_append_perm (passes i) (xs.filter fun x => (i :: is).any (passes · x))
    rw [hfirst, hlater] at hcut
    rw [inTurn_cons]
    exact ((ih _).append_left _).trans hcut

-- The multiples of three stand before the other even numbers.
example : inTurn (fun d n => n % d == 0) [3, 2] [1, 2, 3, 4, 6] = [3, 6, 2, 4] := by decide

/-- Of distinct elements, the first mentions among those that pass one test after the other. -/
theorem firstSeenAfter_flatMap_filter [DecidableEq α] (passes : ι → α → Bool) (is : List ι)
    {xs : List α} (h : xs.Nodup) (seen : List α) :
    firstSeenAfter id seen (is.flatMap fun i => xs.filter (passes i)) =
      inTurn passes is (xs.filter (· ∉ seen)) := by
  -- What passes the first test counts as seen when the others are asked.
  induction is generalizing seen with
  | nil => rfl
  | cons i is ih =>
    rw [List.flatMap_cons, firstSeenAfter_append, List.map_id, ih, inTurn_cons,
      firstSeenAfter_id_of_nodup seen (h.filter _), List.filter_filter, List.filter_filter,
      List.filter_filter]
    congr 1
    · apply List.filter_congr
      intro x _
      exact Bool.and_comm _ _
    · congr 1
      apply List.filter_congr
      intro x hx
      simp [hx]

/-- A new element at the end has the last place. -/
theorem places_append_singleton (passes : α → Bool) (xs : List α) (x : α) :
    places passes (xs ++ [x]) =
      if passes x then places passes xs ++ [xs.length] else places passes xs := by
  have hbefore : ∀ k ∈ List.range xs.length, (xs ++ [x])[k]?.any passes = xs[k]?.any passes := by
    intro k hk
    rw [List.getElem?_append_left (List.mem_range.1 hk)]
  rw [places, List.length_append, List.length_singleton, List.range_succ, List.filter_append,
    List.filter_congr hbefore, List.filter_singleton, List.getElem?_concat_length, Option.any_some,
    ← places]
  cases passes x with
  | true => rfl
  | false => exact List.append_nil _

/-- All places of a list hold its elements in order. -/
theorem map_getElem?_range (xs : List α) :
    (List.range xs.length).map (fun k => xs[k]?) = xs.map some := by
  apply List.ext_getElem?
  intro k
  simp only [List.getElem?_map]
  grind

/-- Asking for the places test by test and keeping the first mention of each finds the elements in
turn. -/
theorem firstSeen_flatMap_places (passes : ι → α → Bool) (is : List ι) (xs : List α) :
    (firstSeen id (is.flatMap fun i => places (passes i) xs)).map (fun k => xs[k]?) =
      (inTurn passes is xs).map some := by
  have hplaces : firstSeen id (is.flatMap fun i => places (passes i) xs) =
      inTurn (fun i k => xs[k]?.any (passes i)) is (List.range xs.length) := by
    simp only [firstSeen, places]
    rw [firstSeenAfter_flatMap_filter _ _ List.nodup_range]
    simp
  calc (firstSeen id (is.flatMap fun i => places (passes i) xs)).map (fun k => xs[k]?)
    _ = (inTurn (fun i k => xs[k]?.any (passes i)) is (List.range xs.length)).map
          (fun k => xs[k]?) := by rw [hplaces]
    _ = inTurn (fun i (x : Option α) => x.any (passes i)) is
          ((List.range xs.length).map fun k => xs[k]?) :=
        (inTurn_map (fun i (x : Option α) => x.any (passes i)) is _ _).symm
    _ = (inTurn passes is xs).map some := by
        rw [map_getElem?_range, inTurn_map]
        rfl

end RecipePlanner

/-!
# Keeping first occurrences

`firstSeen key xs` keeps of each key the first element that has it. The kept elements have distinct
keys (`nodup_map_firstSeen`) and every key is kept (`mem_map_firstSeen`). Along the list the function
works element by element, with the keys met so far as its state (`firstSeenAfter_append`).
-/

namespace RecipePlanner

variable {α β : Type} [DecidableEq β]

/-- The first element of each key that is not in `seen`. -/
def firstSeenAfter (key : α → β) (seen : List β) : List α → List α
  | [] => []
  | x :: xs =>
    if key x ∈ seen then firstSeenAfter key seen xs
    else x :: firstSeenAfter key (key x :: seen) xs

/-- The first element of each key, in order. -/
def firstSeen (key : α → β) (xs : List α) : List α := firstSeenAfter key [] xs

/-- A key is kept exactly if it occurs and was not seen before. -/
theorem mem_map_firstSeenAfter (key : α → β) (seen : List β) (xs : List α) (b : β) :
    b ∈ (firstSeenAfter key seen xs).map key ↔ b ∈ xs.map key ∧ b ∉ seen := by
  induction xs generalizing seen with
  | nil => simp [firstSeenAfter]
  | cons x xs ih =>
    by_cases h : key x ∈ seen
    · rw [firstSeenAfter, if_pos h, ih]
      grind
    · rw [firstSeenAfter, if_neg h, List.map_cons, List.mem_cons, ih]
      grind

theorem mem_map_firstSeen (key : α → β) (xs : List α) (b : β) :
    b ∈ (firstSeen key xs).map key ↔ b ∈ xs.map key := by
  simp [firstSeen, mem_map_firstSeenAfter]

theorem nodup_map_firstSeenAfter (key : α → β) (seen : List β) (xs : List α) :
    ((firstSeenAfter key seen xs).map key).Nodup := by
  induction xs generalizing seen with
  | nil => simp [firstSeenAfter]
  | cons x xs ih =>
    by_cases h : key x ∈ seen
    · rw [firstSeenAfter, if_pos h]
      exact ih seen
    · rw [firstSeenAfter, if_neg h, List.map_cons, List.nodup_cons, mem_map_firstSeenAfter]
      exact ⟨by simp, ih _⟩

/-- No key is kept twice. -/
theorem nodup_map_firstSeen (key : α → β) (xs : List α) : ((firstSeen key xs).map key).Nodup :=
  nodup_map_firstSeenAfter key [] xs

theorem firstSeenAfter_append_singleton (key : α → β) (seen : List β) (xs : List α) (x : α) :
    firstSeenAfter key seen (xs ++ [x]) =
      if key x ∈ seen ∨ key x ∈ xs.map key then firstSeenAfter key seen xs
      else firstSeenAfter key seen xs ++ [x] := by
  induction xs generalizing seen with
  | nil => simp [firstSeenAfter]
  | cons y ys ih =>
    by_cases h : key y ∈ seen
    · rw [List.cons_append, firstSeenAfter, if_pos h, ih, firstSeenAfter, if_pos h]
      grind
    · rw [List.cons_append, firstSeenAfter, if_neg h, ih, firstSeenAfter, if_neg h]
      grind

/-- One more element is kept exactly if its key has not occurred. -/
theorem firstSeen_append_singleton (key : α → β) (xs : List α) (x : α) :
    firstSeen key (xs ++ [x]) =
      if key x ∈ xs.map key then firstSeen key xs else firstSeen key xs ++ [x] := by
  simp [firstSeen, firstSeenAfter_append_singleton]

/-- What was seen matters only as a set. -/
theorem firstSeenAfter_congr (key : α → β) {seen seen' : List β} (h : ∀ b, b ∈ seen ↔ b ∈ seen')
    (xs : List α) : firstSeenAfter key seen xs = firstSeenAfter key seen' xs := by
  induction xs generalizing seen seen' with
  | nil => rfl
  | cons x xs ih =>
    have hcons : ∀ b, b ∈ key x :: seen ↔ b ∈ key x :: seen' := by
      intro b
      rw [List.mem_cons, List.mem_cons, h b]
    simp only [firstSeenAfter, h (key x), ih h, ih hcons]

/-- Behind some elements their keys count as seen. -/
theorem firstSeenAfter_append (key : α → β) (seen : List β) (xs ys : List α) :
    firstSeenAfter key seen (xs ++ ys) =
      firstSeenAfter key seen xs ++ firstSeenAfter key (xs.map key ++ seen) ys := by
  induction xs generalizing seen with
  | nil => rfl
  | cons x xs ih =>
    by_cases h : key x ∈ seen
    · have hseen : ∀ b, b ∈ xs.map key ++ seen ↔ b ∈ (x :: xs).map key ++ seen := by
        intro b
        simp only [List.map_cons, List.cons_append, List.mem_cons, List.mem_append]
        grind
      rw [List.cons_append, firstSeenAfter, if_pos h, ih, firstSeenAfter, if_pos h,
        firstSeenAfter_congr key hseen]
    · have hseen : ∀ b, b ∈ xs.map key ++ key x :: seen ↔ b ∈ (x :: xs).map key ++ seen := by
        intro b
        simp only [List.map_cons, List.cons_append, List.mem_cons, List.mem_append]
        grind
      rw [List.cons_append, firstSeenAfter, if_neg h, ih, firstSeenAfter, if_neg h,
        firstSeenAfter_congr key hseen, List.cons_append]

theorem firstSeenAfter_sublist (key : α → β) (seen : List β) (xs : List α) :
    (firstSeenAfter key seen xs).Sublist xs := by
  induction xs generalizing seen with
  | nil => exact List.Sublist.refl []
  | cons x xs ih =>
    rw [firstSeenAfter]
    split
    · exact (ih seen).cons x
    · exact (ih (key x :: seen)).cons_cons x

/-- What is kept is kept in order. -/
theorem firstSeen_sublist (key : α → β) (xs : List α) : (firstSeen key xs).Sublist xs :=
  firstSeenAfter_sublist key [] xs

/-- The keys that are kept are those of the list without later repetitions. -/
theorem map_firstSeenAfter (key : α → β) (seen : List β) (xs : List α) :
    (firstSeenAfter key seen xs).map key = ((xs.map key).filter (· ∉ seen)).eraseDups := by
  induction xs generalizing seen with
  | nil => rfl
  | cons x xs ih =>
    by_cases h : key x ∈ seen
    · rw [firstSeenAfter, if_pos h, ih, List.map_cons, List.filter_cons_of_neg (by simpa using h)]
    · -- Behind the element its key is left out, as one that was seen.
      rw [firstSeenAfter, if_neg h, List.map_cons, ih, List.map_cons,
        List.filter_cons_of_pos (by simpa using h), List.eraseDups_cons, List.filter_filter]
      simp only [List.mem_cons, not_or, Bool.decide_and, decide_not]
      rfl

theorem map_firstSeen (key : α → β) (xs : List α) :
    (firstSeen key xs).map key = (xs.map key).eraseDups := by
  rw [firstSeen, map_firstSeenAfter, List.filter_eq_self.2 (by simp)]

/-- Elements that were left out as repetitions are left out anyway where their keys count as seen. -/
theorem firstSeenAfter_firstSeenAfter (key : α → β) {seen earlier : List β} (h : earlier ⊆ seen)
    (xs : List α) :
    firstSeenAfter key seen (firstSeenAfter key earlier xs) = firstSeenAfter key seen xs := by
  induction xs generalizing seen earlier with
  | nil => rfl
  | cons x xs ih =>
    by_cases hearlier : key x ∈ earlier
    · rw [firstSeenAfter, if_pos hearlier, ih h, firstSeenAfter, if_pos (h hearlier)]
    · rw [firstSeenAfter, if_neg hearlier, firstSeenAfter, firstSeenAfter]
      split
      · next hseen => exact ih (List.cons_subset.2 ⟨hseen, h⟩)
      · rw [ih (List.cons_subset_cons (key x) h)]

theorem firstSeenAfter_firstSeen (key : α → β) (seen : List β) (xs : List α) :
    firstSeenAfter key seen (firstSeen key xs) = firstSeenAfter key seen xs :=
  firstSeenAfter_firstSeenAfter key (List.nil_subset seen) xs

/-- What is kept of elements that are changed goes by the keys that they have afterwards. -/
theorem firstSeenAfter_map {γ : Type} (key : α → β) (f : γ → α) (seen : List β) (xs : List γ) :
    firstSeenAfter key seen (xs.map f) = (firstSeenAfter (key ∘ f) seen xs).map f := by
  induction xs generalizing seen with
  | nil => rfl
  | cons x xs ih =>
    simp only [List.map_cons, firstSeenAfter, Function.comp_apply, ih]
    split <;> rfl

theorem firstSeen_map {γ : Type} (key : α → β) (f : γ → α) (xs : List γ) :
    firstSeen key (xs.map f) = (firstSeen (key ∘ f) xs).map f :=
  firstSeenAfter_map key f [] xs

section Elements

variable {xs : List β} {x : β}

/-- Of distinct elements all are kept that were not seen before. -/
theorem firstSeenAfter_id_of_nodup (seen : List β) (h : xs.Nodup) :
    firstSeenAfter id seen xs = xs.filter (· ∉ seen) := by
  induction xs generalizing seen with
  | nil => rfl
  | cons x xs ih =>
    obtain ⟨hx, hxs⟩ := List.nodup_cons.1 h
    have hrest : xs.filter (· ∉ x :: seen) = xs.filter (· ∉ seen) := by
      apply List.filter_congr
      intro y hy
      have hne : y ≠ x := fun heq => hx (heq ▸ hy)
      simp [hne]
    by_cases hmem : x ∈ seen
    · rw [firstSeenAfter, id, if_pos hmem, ih seen hxs]
      simp [hmem]
    · rw [firstSeenAfter, id, if_neg hmem, ih (x :: seen) hxs, hrest]
      simp [hmem]

/-- Distinct elements are all first mentions. -/
theorem firstSeen_id_of_nodup (h : xs.Nodup) : firstSeen id xs = xs := by
  rw [firstSeen, firstSeenAfter_id_of_nodup [] h]
  exact List.filter_eq_self.2 fun _ _ => rfl

theorem mem_firstSeenAfter_id {seen : List β} :
    x ∈ firstSeenAfter id seen xs ↔ x ∈ xs ∧ x ∉ seen := by
  have h := mem_map_firstSeenAfter id seen xs x
  rwa [List.map_id, List.map_id] at h

theorem mem_firstSeen_id : x ∈ firstSeen id xs ↔ x ∈ xs := by
  simp [firstSeen, mem_firstSeenAfter_id]

theorem nodup_firstSeen_id : (firstSeen id xs).Nodup := by
  have h := nodup_map_firstSeen id xs
  rwa [List.map_id] at h

end Elements

end RecipePlanner

/-!
# Results of steps that may fail

A chain of steps succeeds exactly if each step does, on the results of those before it. A step taken
for each element of a list succeeds exactly if it does for every element (`mapM_eq_ok_iff`), and its
results are those for the elements (`mem_iff_of_mapM_eq_ok`).
-/

namespace RecipePlanner.Outcome

variable {ε α β : Type}

theorem bind_eq_ok_iff {x : Except ε α} {f : α → Except ε β} {b : β} :
    x >>= f = .ok b ↔ ∃ a, x = .ok a ∧ f a = .ok b := by
  cases x with
  | error e => exact ⟨nofun, fun ⟨_, h, _⟩ => nomatch h⟩
  | ok a =>
    constructor
    · intro h
      exact ⟨a, rfl, h⟩
    · rintro ⟨_, ⟨⟩, h⟩
      exact h

theorem map_eq_ok_iff {x : Except ε α} {f : α → β} {b : β} :
    x.map f = .ok b ↔ ∃ a, x = .ok a ∧ f a = b := by
  cases x with
  | error e => exact ⟨nofun, fun ⟨_, h, _⟩ => nomatch h⟩
  | ok a => simp [Except.map]

/-- The results of a step taken for each element of a list are those for the elements. -/
theorem mem_iff_of_mapM_eq_ok {f : α → Except ε β} {xs : List α} {ys : List β}
    (h : xs.mapM f = .ok ys) {y : β} : y ∈ ys ↔ ∃ x ∈ xs, f x = .ok y := by
  induction xs generalizing ys with
  | nil =>
    cases h
    exact ⟨nofun, fun ⟨_, hx, _⟩ => nomatch hx⟩
  | cons x xs ih =>
    rw [List.mapM_cons, bind_eq_ok_iff] at h
    obtain ⟨b, hb, h⟩ := h
    obtain ⟨bs, hbs, rfl⟩ := map_eq_ok_iff.1 h
    simp only [List.mem_cons, exists_eq_or_imp, ih hbs, hb, Except.ok.injEq, @eq_comm _ y]

/-- A step taken for each element of a list has a result for every element. -/
theorem exists_mem_of_mapM_eq_ok {f : α → Except ε β} {xs : List α} {ys : List β}
    (h : xs.mapM f = .ok ys) {x : α} (hx : x ∈ xs) : ∃ y ∈ ys, f x = .ok y := by
  induction xs generalizing ys with
  | nil => cases hx
  | cons x' xs ih =>
    rw [List.mapM_cons, bind_eq_ok_iff] at h
    obtain ⟨b, hb, h⟩ := h
    obtain ⟨bs, hbs, rfl⟩ := map_eq_ok_iff.1 h
    rcases List.mem_cons.1 hx with rfl | hx
    · exact ⟨b, List.mem_cons_self, hb⟩
    · obtain ⟨y, hy, hf⟩ := ih hbs hx
      exact ⟨y, List.mem_cons_of_mem _ hy, hf⟩

/-- A step that finds something, checks it and goes on with it: for a list it succeeds exactly if
all is found and passes the check. -/
theorem mapM_eq_ok_iff {γ : Type} {f : α → Except ε β} {find : α → Option γ} {check : γ → Prop}
    {g : γ → β} (hf : ∀ x y, f x = .ok y ↔ ∃ c, find x = some c ∧ check c ∧ g c = y)
    {xs : List α} {ys : List β} :
    xs.mapM f = .ok ys ↔ ∃ cs, xs.mapM find = some cs ∧ (∀ c ∈ cs, check c) ∧ cs.map g = ys := by
  induction xs generalizing ys with
  | nil => simp [pure, Except.pure]
  | cons x xs ih =>
    rw [List.mapM_cons, List.mapM_cons, bind_eq_ok_iff]
    constructor
    · rintro ⟨y, hy, h⟩
      obtain ⟨ys', hys', rfl⟩ := map_eq_ok_iff.1 h
      obtain ⟨c, hc, hcheck, rfl⟩ := (hf x y).1 hy
      obtain ⟨cs, hcs, hchecks, rfl⟩ := ih.1 hys'
      refine ⟨c :: cs, ?_, List.forall_mem_cons.2 ⟨hcheck, hchecks⟩, rfl⟩
      rw [hc, hcs]
      rfl
    · rintro ⟨cs, hcs, hchecks, rfl⟩
      obtain ⟨c, hc, hcs⟩ := Option.bind_eq_some_iff.1 hcs
      obtain ⟨cs', hcs', heq⟩ := Option.bind_eq_some_iff.1 hcs
      cases heq
      obtain ⟨hcheck, hchecks⟩ := List.forall_mem_cons.1 hchecks
      refine ⟨g c, (hf x _).2 ⟨c, hc, hcheck, rfl⟩, map_eq_ok_iff.2 ⟨cs'.map g, ?_, rfl⟩⟩
      exact ih.2 ⟨cs', hcs', hchecks, rfl⟩

/-- Looking up all elements of a list finds one thing for each. -/
theorem mapM_eq_some_iff {γ : Type} {find : α → Option γ} {xs : List α} {cs : List γ} :
    xs.mapM find = some cs ↔ xs.map find = cs.map some := by
  induction xs generalizing cs with
  | nil => cases cs <;> simp [pure]
  | cons x xs ih =>
    rw [List.mapM_cons, List.map_cons]
    constructor
    · intro h
      obtain ⟨c, hc, h⟩ := Option.bind_eq_some_iff.1 h
      obtain ⟨cs', hcs', h⟩ := Option.bind_eq_some_iff.1 h
      cases h
      rw [hc, ih.1 hcs', List.map_cons]
    · intro h
      cases cs with
      | nil => cases h
      | cons c cs =>
        rw [List.map_cons, List.cons.injEq] at h
        rw [h.1, ih.2 h.2]
        rfl

end RecipePlanner.Outcome

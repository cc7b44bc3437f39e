/-!
# Tables as lists of pairs

A table is a list of keys with their values, in the order in which the keys came. `alter` changes
the value of one key and `lookup_alter` says all there is to know about it: that key has the new
value and every other key keeps its own.
-/

namespace RecipePlanner.Keyed

variable {κ β : Type} [DecidableEq κ]

/-- The table with the value of `key` changed by `f`; a new key goes to the end. -/
def alter (key : κ) (f : Option β → β) : List (κ × β) → List (κ × β)
  | [] => [(key, f none)]
  | (k, v) :: rest => if k = key then (k, f (some v)) :: rest else (k, v) :: alter key f rest

/-- The value of a key is that of the first pair with it. -/
theorem lookup_cons (k' : κ) (v : β) (rest : List (κ × β)) (k : κ) :
    ((k', v) :: rest).lookup k = if k = k' then some v else rest.lookup k := by
  rw [List.lookup_cons]
  by_cases h : k = k'
  · rw [if_pos h, beq_iff_eq.2 h]
  · rw [if_neg h, beq_eq_false_iff_ne.2 h]

/-- So the value of a key is found by searching for the first pair with it. -/
theorem lookup_eq_map_find? (t : List (κ × β)) (k : κ) :
    t.lookup k = (t.find? (·.1 = k)).map (·.2) := by
  induction t with
  | nil => rfl
  | cons e rest ih =>
    obtain ⟨k', v⟩ := e
    rw [lookup_cons, List.find?_cons, ih]
    by_cases h : k = k'
    · simp [h]
    · simp [h, Ne.symm h]

/-- A key has no value exactly if no pair has it. -/
theorem lookup_eq_none_iff {t : List (κ × β)} {k : κ} :
    t.lookup k = none ↔ k ∉ t.map (·.1) := by
  induction t with
  | nil => simp
  | cons e rest ih =>
    obtain ⟨k', v⟩ := e
    rw [lookup_cons, List.map_cons, List.mem_cons]
    by_cases h : k = k'
    · simp [h]
    · rw [if_neg h, ih]
      simp [h]

/-- A table that has the same keys with values computed from the keys and values. -/
theorem lookup_map {γ : Type} (f : κ → β → γ) (t : List (κ × β)) (k : κ) :
    (t.map fun (key, v) => (key, f key v)).lookup k = (t.lookup k).map (f k) := by
  induction t with
  | nil => rfl
  | cons e rest ih =>
    obtain ⟨k', v⟩ := e
    rw [List.map_cons, lookup_cons, lookup_cons, ih]
    by_cases h : k = k'
    · rw [if_pos h, if_pos h, h]
      rfl
    · rw [if_neg h, if_neg h]

/-- A table that has the same keys with values computed from them alone. -/
theorem lookup_map_key {γ : Type} (f : κ → γ) (t : List (κ × β)) (k : κ) :
    (t.map fun (key, _) => (key, f key)).lookup k = (t.lookup k).map fun _ => f k :=
  lookup_map (fun key _ => f key) t k

omit [DecidableEq κ] in
/-- Such a table is made of the keys. -/
theorem map_key_eq {γ : Type} (f : κ → γ) (t : List (κ × β)) :
    (t.map fun (key, _) => (key, f key)) = (t.map (·.1)).map fun key => (key, f key) := by
  rw [List.map_map]
  rfl

theorem lookup_alter (key : κ) (f : Option β → β) (t : List (κ × β)) (k : κ) :
    (alter key f t).lookup k = if k = key then some (f (t.lookup key)) else t.lookup k := by
  induction t with
  | nil => simp [alter, lookup_cons]
  | cons e rest ih =>
    obtain ⟨k', v⟩ := e
    by_cases hk : k' = key
    · subst hk
      rw [alter, if_pos rfl, lookup_cons, lookup_cons, lookup_cons, if_pos rfl]
      split <;> rfl
    · rw [alter, if_neg hk, lookup_cons, lookup_cons, lookup_cons, ih, if_neg (Ne.symm hk)]
      grind

/-- The keys stay as they are, with a new key behind them. -/
theorem map_fst_alter (key : κ) (f : Option β → β) (t : List (κ × β)) :
    (alter key f t).map (·.1) =
      if key ∈ t.map (·.1) then t.map (·.1) else t.map (·.1) ++ [key] := by
  induction t with
  | nil => simp [alter]
  | cons e rest ih =>
    obtain ⟨k, v⟩ := e
    by_cases h : k = key
    · simp [alter, h]
    · rw [alter, if_neg h, List.map_cons, ih]
      by_cases hm : key ∈ rest.map (·.1) <;> simp [hm, Ne.symm h]

/-- A key that is new gets its pair behind the others. -/
theorem alter_of_not_mem {key : κ} {t : List (κ × β)} (h : key ∉ t.map (·.1))
    (f : Option β → β) : alter key f t = t ++ [(key, f none)] := by
  induction t with
  | nil => rfl
  | cons e rest ih =>
    obtain ⟨k, v⟩ := e
    rw [List.map_cons, List.mem_cons, not_or] at h
    rw [alter, if_neg (Ne.symm h.1), ih h.2, List.cons_append]

/-- A key that is there keeps its place. -/
theorem alter_of_idxOf?_eq_some {key : κ} {t : List (κ × β)} {place : Nat}
    (h : (t.map (·.1)).idxOf? key = some place) (f : Option β → β) :
    alter key f t = t.modify place fun e => (e.1, f (some e.2)) := by
  induction t generalizing place with
  | nil => cases h
  | cons e rest ih =>
    obtain ⟨k, v⟩ := e
    rw [List.map_cons, List.idxOf?_cons] at h
    by_cases hk : k = key
    · rw [if_pos (beq_iff_eq.2 hk)] at h
      cases h
      rw [alter, if_pos hk, List.modify_zero_cons]
    · rw [if_neg (mt beq_iff_eq.1 hk)] at h
      obtain ⟨place', hplace', rfl⟩ := Option.map_eq_some_iff.1 h
      rw [alter, if_neg hk, ih hplace', List.modify_succ_cons]

/-- Computing all values anew goes before changing one of them as well as behind it. -/
theorem map_alter {γ : Type} (h : β → γ) {f : Option β → β} {g : Option γ → γ}
    (hfg : ∀ v, h (f v) = g (v.map h)) (key : κ) (t : List (κ × β)) :
    ((alter key f t).map fun (k, v) => (k, h v)) = alter key g (t.map fun (k, v) => (k, h v)) := by
  induction t with
  | nil => simp [alter, hfg]
  | cons e rest ih =>
    obtain ⟨k, v⟩ := e
    rw [alter, List.map_cons, alter]
    by_cases hk : k = key
    · have hv : h (f (some v)) = g (some (h v)) := hfg (some v)
      rw [if_pos hk, if_pos hk, List.map_cons, ← hv]
    · rw [if_neg hk, if_neg hk, List.map_cons, ih]

/-- Changing the value of a key repeats no key. -/
theorem nodup_map_fst_alter (key : κ) (f : Option β → β) {t : List (κ × β)}
    (h : (t.map (·.1)).Nodup) : ((alter key f t).map (·.1)).Nodup := by
  rw [map_fst_alter]
  split
  · exact h
  · next hkey =>
    rw [List.nodup_append]
    refine ⟨h, List.pairwise_singleton _ key, ?_⟩
    rintro k hk k' hk' rfl
    exact hkey (List.mem_singleton.1 hk' ▸ hk)

/-- Where no key is repeated, the value of a key is that of any pair with it. -/
theorem lookup_eq_some_of_mem {t : List (κ × β)} (hnodup : (t.map (·.1)).Nodup) {k : κ} {v : β}
    (h : (k, v) ∈ t) : t.lookup k = some v := by
  induction t with
  | nil => cases h
  | cons e rest ih =>
    obtain ⟨k', v'⟩ := e
    obtain ⟨hk', hnodup⟩ := List.nodup_cons.1 hnodup
    rw [lookup_cons]
    rcases List.mem_cons.1 h with heq | hrest
    · cases heq
      rw [if_pos rfl]
    · have hne : k ≠ k' := by
        rintro rfl
        exact hk' (List.mem_map.2 ⟨_, hrest, rfl⟩)
      rw [if_neg hne, ih hnodup hrest]

/-- A table without repeated keys is determined by its keys and their values. -/
theorem eq_of_lookup {t u : List (κ × β)} (hkeys : t.map (·.1) = u.map (·.1))
    (hnodup : (t.map (·.1)).Nodup) (hvalues : ∀ k, t.lookup k = u.lookup k) : t = u := by
  induction t generalizing u with
  | nil => exact (List.map_eq_nil_iff.1 hkeys.symm).symm
  | cons e rest ih =>
    cases u with
    | nil => cases hkeys
    | cons e' rest' =>
      obtain ⟨k, v⟩ := e
      obtain ⟨k', v'⟩ := e'
      rw [List.map_cons, List.map_cons, List.cons.injEq] at hkeys
      obtain ⟨rfl, hrest⟩ := hkeys
      obtain ⟨hk, hnodup⟩ := List.nodup_cons.1 hnodup
      have hv : v = v' := by
        have h := hvalues k
        rw [lookup_cons, lookup_cons, if_pos rfl, if_pos rfl] at h
        exact Option.some.inj h
      -- The first key does not occur again, so behind it the values agree for every key.
      have hrest' : rest = rest' := ih hrest hnodup fun j => by
        by_cases hj : j = k
        · subst hj
          have hk' : j ∉ rest'.map (·.1) := hrest ▸ hk
          rw [lookup_eq_none_iff.2 hk, lookup_eq_none_iff.2 hk']
        · have h := hvalues j
          rwa [lookup_cons, lookup_cons, if_neg hj, if_neg hj] at h
      rw [hv, hrest']

end RecipePlanner.Keyed

import RecipePlanner.Keyed

/-!
# Elements with an index of their keys

Elements stand in the order in which they came, and beside them stands an index with the place of
each key. The two are kept in step: an element with a new key goes to the end and its place into the
index, and an element that is changed keeps its key, so that its place stays right (`inStep`).

So an element is found through the index exactly where a search from the front finds it
(`find?_eq`). Where the elements are keys with values, they are a table in which a value is changed
(`entries_alter`) and looked up (`value?_eq_lookup`) as in any other.
-/

namespace RecipePlanner

variable {κ α β : Type} [DecidableEq κ]

/-- Elements in order with an index that has the place of each key. -/
structure Indexed (key : α → κ) where
  entries : List α
  index : List (κ × Nat)
  inStep : ∀ k, index.lookup k = (entries.map key).idxOf? k

/-- Keys with values and an index of the keys. -/
abbrev IndexedTable (κ β : Type) [DecidableEq κ] := Indexed (Prod.fst : κ × β → κ)

namespace Indexed

variable {key : α → κ}

/-- No elements. -/
def empty : Indexed key := ⟨[], [], fun _ => rfl⟩

/-- The element with a key, at the place that the index has for it. -/
def find? (t : Indexed key) (k : κ) : Option α :=
  (t.index.lookup k).bind fun place => t.entries[place]?

theorem idxOf?_append_singleton (ks : List κ) (k' k : κ) :
    (ks ++ [k']).idxOf? k = (ks.idxOf? k).or (if k' = k then some ks.length else none) := by
  rw [List.idxOf?, List.findIdx?_append, List.findIdx?_singleton]
  by_cases h : k' = k <;> simp [h]

/-- The place of a new key behind the others is the number of those before it. -/
theorem lookup_alter_of_new {index : List (κ × Nat)} {xs : List α} {x : α}
    (hstep : ∀ k, index.lookup k = (xs.map key).idxOf? k) (hnew : index.lookup (key x) = none)
    (k : κ) :
    (Keyed.alter (key x) (fun _ => xs.length) index).lookup k =
      ((xs ++ [x]).map key).idxOf? k := by
  rw [Keyed.lookup_alter, List.map_append, List.map_singleton, idxOf?_append_singleton,
    List.length_map, hstep]
  by_cases h : k = key x
  · -- No element before the new one has its key.
    rw [if_pos h, if_pos h.symm, h, ← hstep, hnew]
    rfl
  · rw [if_neg h, if_neg (Ne.symm h), Option.or_none]

/-- Puts an element with a new key behind the others. -/
def push (t : Indexed key) (x : α) (hnew : t.index.lookup (key x) = none) : Indexed key where
  entries := t.entries ++ [x]
  index := Keyed.alter (key x) (fun _ => t.entries.length) t.index
  inStep := lookup_alter_of_new t.inStep hnew

theorem map_modify_of_key {f : α → α} (hkey : ∀ x, key (f x) = key x) (xs : List α) (place : Nat) :
    (xs.modify place f).map key = xs.map key := by
  apply List.ext_getElem?
  intro i
  rw [List.getElem?_map, List.getElem?_map, List.getElem?_modify]
  cases xs[i]? with
  | none => rfl
  | some x => by_cases h : place = i <;> simp [h, hkey]

/-- Changes the element at a place, but not its key. -/
def modify (t : Indexed key) (place : Nat) (f : α → α) (hkey : ∀ x, key (f x) = key x) :
    Indexed key where
  entries := t.entries.modify place f
  index := t.index
  inStep k := by rw [map_modify_of_key hkey, t.inStep]

/-- Puts an element behind the others unless there is one with its key. -/
def insertNew? (t : Indexed key) (x : α) : Option (Indexed key) :=
  match h : t.index.lookup (key x) with
  | some _ => none
  | none => some (t.push x h)

/-- Changes the value of a key; a new key goes to the end. -/
def alter (k : κ) (f : Option β → β) (t : IndexedTable κ β) : IndexedTable κ β :=
  match h : t.index.lookup k with
  | some place => t.modify place (fun e => (e.1, f (some e.2))) fun _ => rfl
  | none => t.push (k, f none) h

/-- The value of a key. -/
def value? (t : IndexedTable κ β) (k : κ) : Option β := (t.find? k).map (·.2)

theorem lookup_zipIdx (ks : List κ) (n : Nat) (k : κ) :
    (ks.zipIdx n).lookup k = (ks.idxOf? k).map (· + n) := by
  induction ks generalizing n with
  | nil => rfl
  | cons k' ks ih =>
    rw [List.zipIdx_cons, Keyed.lookup_cons, List.idxOf?_cons, ih]
    by_cases h : k = k'
    · simp [h]
    · simp [h, Ne.symm h, Function.comp_def, Nat.add_comm 1, Nat.add_assoc]

/-- Elements with the index that is read off them. -/
def ofList (key : α → κ) (xs : List α) : Indexed key where
  entries := xs
  index := (xs.map key).zipIdx
  inStep k := by
    rw [lookup_zipIdx]
    exact Option.map_id'

/-! ## What is found -/

/-- The places of keys depend on the elements alone, however the index came about. -/
theorem lookup_index_congr {t u : Indexed key} (h : t.entries = u.entries) (k : κ) :
    t.index.lookup k = u.index.lookup k := by
  rw [t.inStep, u.inStep, h]

/-- The index has no place for a key exactly if no element has it. -/
theorem lookup_index_eq_none_iff {t : Indexed key} {k : κ} :
    t.index.lookup k = none ↔ k ∉ t.entries.map key := by
  rw [t.inStep, List.idxOf?_eq_none_iff]

/-- Through the index the first element with the key is found. -/
theorem find?_eq (t : Indexed key) (k : κ) : t.find? k = t.entries.find? (key · = k) := by
  rw [find?, t.inStep, List.idxOf?, List.findIdx?_map, List.find?_eq_bind_findIdx?_getElem?]
  rfl

/-- The index has a place for a key exactly if an element is found with it. -/
theorem isSome_lookup_index (t : Indexed key) (k : κ) :
    (t.index.lookup k).isSome = (t.find? k).isSome := by
  rw [find?_eq, t.inStep, List.idxOf?, List.findIdx?_isSome, List.any_map, List.isSome_find?]
  rfl

/-- An element is put in exactly if its key is new. -/
theorem exists_insertNew?_iff {t : Indexed key} {x : α} :
    (∃ t', t.insertNew? x = some t') ↔ key x ∉ t.entries.map key := by
  rw [← lookup_index_eq_none_iff, insertNew?]
  split
  · next place h => exact iff_of_false nofun fun hnone => nomatch h.symm.trans hnone
  · next h => exact iff_of_true ⟨_, rfl⟩ h

/-- It is the last one then. -/
theorem entries_of_insertNew? {t t' : Indexed key} {x : α} (h : t.insertNew? x = some t') :
    t'.entries = t.entries ++ [x] := by
  rw [insertNew?] at h
  split at h
  · cases h
  · cases h
    rfl

/-- Changing the value of a key changes the table as if there were no index. -/
theorem entries_alter (k : κ) (f : Option β → β) (t : IndexedTable κ β) :
    (t.alter k f).entries = Keyed.alter k f t.entries := by
  rw [alter]
  split
  · next place h =>
    rw [t.inStep] at h
    exact (Keyed.alter_of_idxOf?_eq_some h f).symm
  · next h => exact (Keyed.alter_of_not_mem (lookup_index_eq_none_iff.1 h) f).symm

/-- Looking up a key through the index is looking it up in the table. -/
theorem value?_eq_lookup (t : IndexedTable κ β) (k : κ) : t.value? k = t.entries.lookup k := by
  rw [value?, find?_eq, Keyed.lookup_eq_map_find?]

end Indexed

end RecipePlanner

import Mathlib.Data.List.Induction
import RecipePlanner.Document.Choice
import RecipePlanner.FirstSeen

/-!
# The alternatives of an ingredient

An ingredient is a tree of lists with names at its leaves. The alternatives are the names in written
order without repetitions (`alternatives_eq_firstSeen`). Each of them is the canonical form of a name
(`exists_qualified_of_mem_alternatives`), so it has a namespace, and reading it as an identifier keeps
it (`id_parse_of_mem_alternatives`).
-/

namespace RecipePlanner.Document

mutual

/-- The names in an ingredient in written order, with repetitions. -/
def writtenNames : Json → List String
  | .list items => allWrittenNames items
  | .null => []
  | .bool _ => []
  | .number _ => []
  | .text s => (ingredientName? (.text s)).toList
  | .object members => (ingredientName? (.object members)).toList

/-- The names in the items of a list. -/
def allWrittenNames : List Json → List String
  | [] => []
  | v :: vs => writtenNames v ++ allWrittenNames vs

end

theorem foldl_addName_toList (found : List String) (name : Option String) :
    (name.map (addName found)).getD found = name.toList.foldl addName found := by
  cases name <;> rfl

mutual

/-- The names in an ingredient are added one after the other. -/
theorem addAlternatives_eq_foldl (found : List String) (v : Json) :
    addAlternatives found v = (writtenNames v).foldl addName found := by
  cases v with
  | list items =>
    rw [addAlternatives, writtenNames]
    exact addAllAlternatives_eq_foldl found items
  | null => rfl
  | bool _ => rfl
  | number _ => rfl
  | text s =>
    rw [addAlternatives, writtenNames]
    exact foldl_addName_toList found _
  | object members =>
    rw [addAlternatives, writtenNames]
    exact foldl_addName_toList found _

theorem addAllAlternatives_eq_foldl (found : List String) (vs : List Json) :
    addAllAlternatives found vs = (allWrittenNames vs).foldl addName found := by
  cases vs with
  | nil => rfl
  | cons v vs =>
    rw [addAllAlternatives, allWrittenNames, List.foldl_append, ← addAlternatives_eq_foldl found v]
    exact addAllAlternatives_eq_foldl _ vs

end

theorem foldl_addName (names : List String) : names.foldl addName [] = firstSeen id names := by
  induction names using List.reverseRecOn with
  | nil => rfl
  | append_singleton names name ih =>
    rw [List.foldl_append, List.foldl_cons, List.foldl_nil, ih, addName,
      firstSeen_append_singleton, List.map_id]
    simp only [mem_firstSeen_id, id]

/-- The alternatives are the names in written order, each once. -/
theorem alternatives_eq_firstSeen (v : Json) : alternatives v = firstSeen id (writtenNames v) := by
  rw [alternatives, addAlternatives_eq_foldl, foldl_addName]

theorem nodup_alternatives (v : Json) : (alternatives v).Nodup := by
  rw [alternatives_eq_firstSeen]
  exact nodup_firstSeen_id

/-! ## The form of a name -/

theorem exists_qualified_canonicalName (raw : String) :
    ∃ r, canonicalName raw = Naming.qualified r := by
  rw [canonicalName]
  split
  · exact ⟨_, rfl⟩
  · exact ⟨raw, rfl⟩

theorem exists_qualified_of_ingredientName? {v : Json} {name : String}
    (h : ingredientName? v = some name) : ∃ raw, name = Naming.qualified raw := by
  cases v with
  | text raw =>
    rw [ingredientName?] at h
    split at h
    · cases h
    · cases h
      exact exists_qualified_canonicalName raw
  | object members =>
    obtain ⟨⟨form, raw⟩, -, rfl⟩ := Option.map_eq_some_iff.1 h
    dsimp only
    split
    · exact ⟨_, rfl⟩
    · exact exists_qualified_canonicalName raw
  | _ => cases h

mutual

theorem exists_qualified_of_mem_writtenNames {v : Json} {name : String}
    (h : name ∈ writtenNames v) : ∃ raw, name = Naming.qualified raw := by
  cases v with
  | list items =>
    rw [writtenNames] at h
    exact exists_qualified_of_mem_allWrittenNames h
  | null => cases h
  | bool _ => cases h
  | number _ => cases h
  | text s =>
    rw [writtenNames, Option.mem_toList] at h
    exact exists_qualified_of_ingredientName? h
  | object members =>
    rw [writtenNames, Option.mem_toList] at h
    exact exists_qualified_of_ingredientName? h

theorem exists_qualified_of_mem_allWrittenNames {vs : List Json} {name : String}
    (h : name ∈ allWrittenNames vs) : ∃ raw, name = Naming.qualified raw := by
  cases vs with
  | nil => cases h
  | cons v vs =>
    rw [allWrittenNames, List.mem_append] at h
    rcases h with h | h
    · exact exists_qualified_of_mem_writtenNames h
    · exact exists_qualified_of_mem_allWrittenNames h

end

/-- Every alternative is the canonical form of a name. -/
theorem exists_qualified_of_mem_alternatives {v : Json} {name : String}
    (h : name ∈ alternatives v) : ∃ raw, name = Naming.qualified raw := by
  rw [alternatives_eq_firstSeen, mem_firstSeen_id] at h
  exact exists_qualified_of_mem_writtenNames h

theorem colon_mem_of_mem_alternatives {v : Json} {name : String} (h : name ∈ alternatives v) :
    ':' ∈ name.toList := by
  obtain ⟨raw, rfl⟩ := exists_qualified_of_mem_alternatives h
  exact Naming.colon_mem_qualified raw

/-- An alternative read as an identifier stays as it is. -/
theorem id_parse_of_mem_alternatives {v : Json} {name : String} (h : name ∈ alternatives v) :
    (Material.parse name).id = name := by
  obtain ⟨raw, rfl⟩ := exists_qualified_of_mem_alternatives h
  rw [Material.id_parse, Text.trim_eq_self (Naming.isTrimmed_qualified raw)]

end RecipePlanner.Document

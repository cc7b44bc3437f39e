import RecipePlanner.Recipe

/-!
# Keys of alternatives

Among the recipes for one item each gets a key by which it can be chosen. The method serves as key
if no other recipe of the list has it; else the name of the document is added, and repeats of a key
are numbered from two on.
-/

namespace RecipePlanner.BranchKey

/-- A character of a document's name inside a key: letters in lower case, digits and underscores
stand, all else becomes an underscore. -/
def plainChar (c : Char) : Char := if c.isAlphanum ∨ c = '_' then c.toLower else '_'

/-- A document's name inside a key. -/
def plainStem (stem : String) : String := String.ofList (stem.toList.map plainChar)

/-- The key of a recipe before repeats are numbered. -/
def base (rs : List Recipe) (r : Recipe) : String :=
  if rs.countP (·.method = r.method) = 1 then r.method.key
  else r.method.key ++ "." ++ plainStem r.fileStem

/-- The keys with repeats numbered; `earlier` holds the keys before them. -/
def numbered (earlier : List String) : List String → List String
  | [] => []
  | b :: bs =>
    let n := earlier.count b + 1
    (if n = 1 then b else b ++ "." ++ toString n) :: numbered (b :: earlier) bs

/-- One key per recipe, in order. -/
def assign (rs : List Recipe) : List String := numbered [] (rs.map (base rs))

theorem length_numbered (earlier bs : List String) :
    (numbered earlier bs).length = bs.length := by
  induction bs generalizing earlier with
  | nil => rfl
  | cons b bs ih => simp [numbered, ih]

/-- There are as many keys as recipes. -/
theorem length_assign (rs : List Recipe) : (assign rs).length = rs.length := by
  simp [assign, length_numbered]

/-- A numbered key starts with the key that was to be numbered. -/
theorem exists_append_of_mem_numbered {earlier bs : List String} {k : String}
    (h : k ∈ numbered earlier bs) : ∃ b ∈ bs, ∃ rest, k = b ++ rest := by
  induction bs generalizing earlier with
  | nil => cases h
  | cons b bs ih =>
    rcases List.mem_cons.1 h with rfl | h
    · refine ⟨b, List.mem_cons_self, ?_⟩
      split
      · exact ⟨"", (String.append_empty).symm⟩
      · exact ⟨"." ++ toString (earlier.count b + 1), String.append_assoc⟩
    · obtain ⟨b', hb', hk⟩ := ih h
      exact ⟨b', List.mem_cons_of_mem b hb', hk⟩

/-- Every key starts with the word for the method of a recipe. -/
theorem exists_append_of_mem_assign {rs : List Recipe} {k : String} (h : k ∈ assign rs) :
    ∃ r ∈ rs, ∃ rest, k = r.method.key ++ rest := by
  obtain ⟨b, hb, rest, rfl⟩ := exists_append_of_mem_numbered h
  obtain ⟨r, hr, rfl⟩ := List.mem_map.1 hb
  refine ⟨r, hr, ?_⟩
  rw [base]
  split
  · exact ⟨rest, rfl⟩
  · exact ⟨"." ++ plainStem r.fileStem ++ rest, by simp only [String.append_assoc]⟩

theorem ne_empty_of_mem_assign {rs : List Recipe} {k : String} (h : k ∈ assign rs) : k ≠ "" := by
  obtain ⟨r, -, rest, rfl⟩ := exists_append_of_mem_assign h
  exact fun hempty => r.method.key_ne_empty (String.append_eq_empty_iff.1 hempty).1

end RecipePlanner.BranchKey

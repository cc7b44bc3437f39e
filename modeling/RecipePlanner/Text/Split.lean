/-!
# Cutting a text at separators

`splitOn` cuts at every separator and keeps empty pieces, so the pieces of a text are those before and
those behind any of its separators (`splitOn_append_sep`). `afterLast` is the part behind the last
occurrence of a character (`exists_eq_append_afterLast`), the whole text if there is none, and
`cutFirst` the two parts around the first occurrence. `lines` cuts a text into its lines.
-/

namespace RecipePlanner.Text

/-- The pieces with one more character at the start of the first piece. -/
def extendFirst (c : Char) : List (List Char) → List (List Char)
  | [] => [[c]]
  | piece :: pieces => (c :: piece) :: pieces

/-- The pieces between the characters that satisfy `sep`, empty ones included. -/
def splitOn (sep : Char → Bool) : List Char → List (List Char)
  | [] => [[]]
  | c :: cs => if sep c then [] :: splitOn sep cs else extendFirst c (splitOn sep cs)

/-- The part behind the last `c`, or all of the text if `c` is not in it. -/
def afterLast (c : Char) : List Char → List Char
  | [] => []
  | d :: ds => if c ∈ ds then afterLast c ds else if d = c then ds else d :: ds

/-- The texts before and behind the first `c`, if there is one. -/
def cutFirst (c : Char) : List Char → Option (List Char × List Char)
  | [] => none
  | d :: ds => if d = c then some ([], ds) else (cutFirst c ds).map fun (l, r) => (d :: l, r)

/-- A line without the carriage return that may stand at its end. -/
def dropReturn (line : List Char) : List Char :=
  if line.getLast? = some '\r' then line.dropLast else line

/-- The lines of a text. A line ends in a line feed, in front of which a carriage return may stand;
what stands behind the last line feed is a line too unless it is empty. -/
def lines (cs : List Char) : List (List Char) :=
  let pieces := splitOn (· = '\n') cs
  pieces.dropLast.map dropReturn ++ (pieces.getLast?.filter (· ≠ [])).toList

/-- Whether `part` occurs somewhere in a text. -/
def hasInfix (part : List Char) : List Char → Bool
  | [] => part.isEmpty
  | c :: cs => part.isPrefixOf (c :: cs) || hasInfix part cs

theorem extendFirst_append (c : Char) {pieces : List (List Char)} (h : pieces ≠ [])
    (more : List (List Char)) : extendFirst c (pieces ++ more) = extendFirst c pieces ++ more := by
  cases pieces with
  | nil => exact absurd rfl h
  | cons piece pieces => rfl

theorem splitOn_ne_nil (sep : Char → Bool) (cs : List Char) : splitOn sep cs ≠ [] := by
  cases cs with
  | nil => simp [splitOn]
  | cons c cs =>
    rw [splitOn]
    split
    · simp
    · cases splitOn sep cs <;> simp [extendFirst]

/-- A text without separators is one piece. -/
theorem splitOn_eq_single {sep : Char → Bool} {cs : List Char} (h : ∀ c ∈ cs, sep c = false) :
    splitOn sep cs = [cs] := by
  induction cs with
  | nil => rfl
  | cons c cs ih =>
    obtain ⟨hc, hcs⟩ := List.forall_mem_cons.1 h
    rw [splitOn, hc, ih hcs]
    rfl

/-- The pieces around a separator are cut off one from the other. -/
theorem splitOn_append_sep {sep : Char → Bool} {c : Char} (hc : sep c = true)
    (before behind : List Char) :
    splitOn sep (before ++ c :: behind) = splitOn sep before ++ splitOn sep behind := by
  induction before with
  | nil => simp [splitOn, hc]
  | cons d ds ih =>
    rw [List.cons_append, splitOn, splitOn, ih]
    split
    · rfl
    · exact extendFirst_append d (splitOn_ne_nil sep ds) (splitOn sep behind)

/-- The pieces around the first separator make up the text again. -/
theorem eq_of_cutFirst {c : Char} {cs l r : List Char} (h : cutFirst c cs = some (l, r)) :
    cs = l ++ c :: r ∧ c ∉ l := by
  induction cs generalizing l with
  | nil => simp [cutFirst] at h
  | cons d ds ih =>
    by_cases hd : d = c
    · simp [cutFirst, hd] at h
      obtain ⟨rfl, rfl⟩ := h
      simp [hd]
    · simp only [cutFirst, hd, if_false, Option.map_eq_some_iff] at h
      obtain ⟨⟨l', r'⟩, h, he⟩ := h
      simp only [Prod.mk.injEq] at he
      obtain ⟨rfl, rfl⟩ := he
      obtain ⟨rfl, hn⟩ := ih h
      exact ⟨rfl, by simp [hn, Ne.symm hd]⟩

/-- The first separator is the one that has none in front of it. -/
theorem cutFirst_append {c : Char} {before : List Char} (h : c ∉ before) (behind : List Char) :
    cutFirst c (before ++ c :: behind) = some (before, behind) := by
  induction before with
  | nil => exact if_pos rfl
  | cons d ds ih =>
    rw [List.mem_cons, not_or] at h
    rw [List.cons_append, cutFirst, if_neg (Ne.symm h.1), ih h.2]
    rfl

/-- The part behind a separator that does not come again is the part behind the last one. -/
theorem afterLast_append {c : Char} {behind : List Char} (h : c ∉ behind) (before : List Char) :
    afterLast c (before ++ c :: behind) = behind := by
  induction before with
  | nil => simp [afterLast, h]
  | cons d ds ih => simp [afterLast, ih]

/-- A text with a separator in it ends with the last one and the part behind it. -/
theorem exists_eq_append_afterLast {c : Char} {cs : List Char} (h : c ∈ cs) :
    ∃ before, cs = before ++ c :: afterLast c cs ∧ c ∉ afterLast c cs := by
  induction cs with
  | nil => cases h
  | cons d ds ih =>
    by_cases hds : c ∈ ds
    · obtain ⟨before, hbefore, hnot⟩ := ih hds
      rw [afterLast, if_pos hds]
      exact ⟨d :: before, congrArg (d :: ·) hbefore, hnot⟩
    · obtain rfl := (List.mem_cons.1 h).resolve_right hds
      rw [afterLast, if_neg hds, if_pos rfl]
      exact ⟨[], rfl, hds⟩

end RecipePlanner.Text

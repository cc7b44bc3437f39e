import RecipePlanner.Text.Blank
import RecipePlanner.Text.Capital
import RecipePlanner.Text.Split

/-!
# Written forms of item and tag names

A name is `namespace:path`; a tag has a `#` in front. `qualified` supplies the namespace that
plain names leave out, `tagName` gives the one canonical form of a tag, and `display` derives the
words shown to a reader from the last part of the path.
-/

namespace RecipePlanner.Naming

/-- The namespace of names written without one. -/
def defaultNamespace : String := "minecraft"

/-- Whether the first character marks a tag. -/
def isTagName (s : String) : Bool := s.toList.head? = some '#'

/-- A body with the default namespace in front unless it names one itself. -/
def withNamespace (body : List Char) : List Char :=
  if ':' ∈ body then body else defaultNamespace.toList ++ ':' :: body

/-- A name with its namespace, without blanks at its ends. One mark of a tag is kept in front. -/
def qualified (raw : String) : String :=
  String.ofList <| match (Text.trim raw).toList with
    | '#' :: body => '#' :: withNamespace body
    | body => withNamespace body

/-- The text without the `#` characters it starts with. -/
def withoutMarks (cs : List Char) : List Char := cs.dropWhile (· = '#')

/-- The canonical form of a tag: one `#`, a namespace and a path. -/
def tagName (raw : String) : String :=
  qualified (String.ofList ('#' :: withoutMarks (Text.trim raw).toList))

/-- The words of the last part of a name's path, each with a capital: `#minecraft:wooden/dark_oak`
reads `Dark Oak`. -/
def display (name : String) : String :=
  let last := Text.afterLast '/' (Text.afterLast ':' (withoutMarks name.toList))
  let words := (Text.splitOn (· = '_') last).filter (· ≠ [])
  String.ofList ([' '].intercalate (words.map Text.capitalize))

/-! ## Canonical names

A name with its namespace holds a colon and has no blanks at its ends, so reading it as an identifier
keeps it as it is.
-/

theorem colon_mem_withNamespace (body : List Char) : ':' ∈ withNamespace body := by
  rw [withNamespace]
  split
  · next h => exact h
  · exact List.mem_append_right _ List.mem_cons_self

/-- A namespace does not start with a blank. -/
theorem start_withNamespace {body : List Char} (h : ∀ c ∈ body.head?, Text.isBlank c = false) :
    ∀ c ∈ (withNamespace body).head?, Text.isBlank c = false := by
  rw [withNamespace]
  split
  · exact h
  · rintro c ⟨⟩
    decide

/-- A namespace does not change whether the last character is blank. -/
theorem finish_withNamespace {body : List Char}
    (h : ∀ c ∈ body.getLast?, Text.isBlank c = false) :
    ∀ c ∈ (withNamespace body).getLast?, Text.isBlank c = false := by
  rw [withNamespace]
  split
  · exact h
  · rw [List.getLast?_append, List.getLast?_cons, Option.some_or, ← List.getLast?_cons]
    exact Text.getLast?_cons_of_not_isBlank (by decide) h

theorem colon_mem_qualified (raw : String) : ':' ∈ (qualified raw).toList := by
  rw [qualified, String.toList_ofList]
  split
  · exact List.mem_cons_of_mem _ (colon_mem_withNamespace _)
  · exact colon_mem_withNamespace _

theorem isTrimmed_qualified (raw : String) : Text.IsTrimmed (qualified raw).toList := by
  have hraw := Text.isTrimmed_trim raw
  rw [qualified, String.toList_ofList]
  split
  · -- Behind the mark of a tag only the end matters.
    next body hbody =>
    rw [hbody] at hraw
    have hfinish : ∀ c ∈ body.getLast?, Text.isBlank c = false := by
      cases body with
      | nil => exact nofun
      | cons c cs =>
        rw [← List.getLast?_cons_cons]
        exact hraw.finish
    constructor
    · rintro c ⟨⟩
      decide
    · exact Text.getLast?_cons_of_not_isBlank (by decide) (finish_withNamespace hfinish)
  · exact ⟨start_withNamespace hraw.start, finish_withNamespace hraw.finish⟩

/-- The canonical form of a tag is one mark, and behind it the rest of the name with a namespace. -/
theorem toList_tagName (raw : String) :
    (tagName raw).toList =
      '#' :: withNamespace (Text.trimEnd (withoutMarks (Text.trim raw).toList)) := by
  have htrim : (Text.trim (String.ofList ('#' :: withoutMarks (Text.trim raw).toList))).toList =
      '#' :: Text.trimEnd (withoutMarks (Text.trim raw).toList) := by
    have hmark : Text.isBlank '#' = false := by decide
    rw [Text.trim, String.toList_ofList, String.toList_ofList,
      Text.trimStart_eq_self (by simp [hmark]), Text.trimEnd_cons hmark]
  rw [tagName, qualified, htrim, String.toList_ofList]
  rfl

/-- The canonical form of a tag is marked as the name of a tag. -/
theorem isTagName_tagName (raw : String) : isTagName (tagName raw) = true := by
  rw [isTagName, toList_tagName]
  rfl

/-! ## Blanks around names of tags -/

/-- Blanks behind the name of a tag do not hide its mark. -/
theorem isTagName_trim {name : String} (h : isTagName name = true) :
    isTagName (Text.trim name) = true := by
  rw [isTagName, decide_eq_true_iff, List.head?_eq_some_iff] at h
  obtain ⟨body, hbody⟩ := h
  have hmark : Text.isBlank '#' = false := by decide
  rw [isTagName, Text.trim, String.toList_ofList, hbody,
    Text.trimStart_eq_self (by simp [hmark]), Text.trimEnd_cons hmark]
  rfl

theorem tagName_trim (name : String) : tagName (Text.trim name) = tagName name := by
  rw [tagName, tagName, Text.trim_trim]

end RecipePlanner.Naming

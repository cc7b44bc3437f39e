import RecipePlanner.Proofs.Document.Alternatives

/-!
# Canonical names

Each of the three forms that names are brought into gives a name with a namespace and without blanks at
its ends (`IsCanonical`). A name that has both is not changed any more: not by `qualified`
(`qualified_eq_self`), not by `tagName` if it has one mark in front (`tagName_eq_self`), and so not by
the form for ingredients, which is one of these two by the first character. Recipes, catalogues and
routes may therefore bring names into form again without losing a match (`canonical_names_fixed`).

Of the name of a tag only what stands behind its marks counts (`tagName_congr`), and blanks are trimmed
off before the marks are: a blank behind them is part of the name.
-/

namespace RecipePlanner.Naming

/-! ## Names in canonical form -/

/-- What the two forms of a name have in common: a namespace, and no blanks at the ends. -/
structure IsCanonical (name : String) : Prop where
  colon : ':' ∈ name.toList
  trimmed : Text.IsTrimmed name.toList

theorem isCanonical_qualified (raw : String) : IsCanonical (qualified raw) :=
  ⟨colon_mem_qualified raw, isTrimmed_qualified raw⟩

theorem isCanonical_tagName (raw : String) : IsCanonical (tagName raw) := isCanonical_qualified _

theorem withNamespace_eq_self {body : List Char} (h : ':' ∈ body) : withNamespace body = body :=
  if_pos h

/-- A name in canonical form keeps it. -/
theorem qualified_eq_self {name : String} (h : IsCanonical name) : qualified name = name := by
  have hcolon := h.colon
  apply String.toList_injective
  rw [qualified, Text.trim_eq_self h.trimmed, String.toList_ofList]
  split
  · next body hbody =>
    -- The mark in front is no colon, so the colon stands in the body.
    rw [hbody] at hcolon ⊢
    have hmem : ':' ∈ body := (List.mem_cons.1 hcolon).resolve_left (by decide)
    rw [withNamespace_eq_self hmem]
  · exact withNamespace_eq_self hcolon

/-! ## Tags -/

/-- The text does not start with the mark of a tag. -/
def Unmarked (cs : List Char) : Prop := ∀ c ∈ cs.head?, c ≠ '#'

theorem unmarked_withoutMarks (cs : List Char) : Unmarked (withoutMarks cs) := by
  intro c hc
  have hnot := List.head?_dropWhile_not (fun c => decide (c = '#')) cs
  rw [withoutMarks] at hc
  rw [Option.mem_def.1 hc] at hnot
  simpa using hnot

theorem withoutMarks_eq_self {cs : List Char} (h : Unmarked cs) : withoutMarks cs = cs := by
  cases cs with
  | nil => rfl
  | cons c cs => exact List.dropWhile_cons_of_neg (by simpa using h c rfl)

theorem unmarked_withNamespace {body : List Char} (h : Unmarked body) :
    Unmarked (withNamespace body) := by
  rw [withNamespace]
  split
  · exact h
  · rintro c ⟨⟩
    decide

theorem Unmarked.trimEnd {cs : List Char} (h : Unmarked cs) : Unmarked (Text.trimEnd cs) :=
  fun c hc => h c (Text.mem_head?_of_mem_head?_trimEnd hc)

/-- A name in canonical form that has one mark in front is the canonical form of a tag. -/
theorem tagName_eq_self {name : String} {body : List Char} (h : IsCanonical name)
    (hname : name.toList = '#' :: body) (hbody : Unmarked body) : tagName name = name := by
  have hmarks : withoutMarks ('#' :: body) = body := by
    rw [withoutMarks, List.dropWhile_cons_of_pos (by decide)]
    exact withoutMarks_eq_self hbody
  rw [tagName, Text.trim_eq_self h.trimmed, hname, hmarks, ← hname, String.ofList_toList,
    qualified_eq_self h]

/-- All that counts of the name of a tag is what stands behind its marks. -/
theorem tagName_congr {raw raw' : String}
    (h : withoutMarks (Text.trim raw).toList = withoutMarks (Text.trim raw').toList) :
    tagName raw = tagName raw' := by
  rw [tagName, tagName, h]

theorem exists_toList_tagName (raw : String) :
    ∃ c rest, (tagName raw).toList = '#' :: c :: rest ∧ c ≠ '#' := by
  have hunmarked := unmarked_withNamespace (unmarked_withoutMarks (Text.trim raw).toList).trimEnd
  rw [toList_tagName]
  cases hbody : withNamespace (Text.trimEnd (withoutMarks (Text.trim raw).toList)) with
  | nil =>
    have hcolon := colon_mem_withNamespace (Text.trimEnd (withoutMarks (Text.trim raw).toList))
    rw [hbody] at hcolon
    cases hcolon
  | cons c rest =>
    rw [hbody] at hunmarked
    exact ⟨c, rest, rfl, hunmarked c rfl⟩

theorem tagName_tagName (raw : String) : tagName (tagName raw) = tagName raw :=
  tagName_eq_self (isCanonical_qualified _) (toList_tagName raw)
    (unmarked_withNamespace (unmarked_withoutMarks _).trimEnd)

/-- Marks in front of a name that does not start with a blank, and blanks around both, do not
count. -/
theorem tagName_append {front behind raw : String}
    (hfront : ∀ c ∈ front.toList, Text.isBlank c = true)
    (hbehind : ∀ c ∈ behind.toList, Text.isBlank c = true)
    (hraw : ∀ c ∈ raw.toList.head?, Text.isBlank c = false) (marks : Nat) :
    tagName (front ++ String.ofList (List.replicate marks '#') ++ raw ++ behind) = tagName raw := by
  have hmarks : ∀ c ∈ List.replicate marks '#', c = '#' := fun c => List.eq_of_mem_replicate
  have hstart : ∀ c ∈ (List.replicate marks '#' ++ raw.toList).head?, Text.isBlank c = false := by
    cases marks with
    | zero => exact hraw
    | succ marks =>
      rintro c ⟨⟩
      decide
  -- Neither the marks nor what stands behind them starts with a blank, so only the end is trimmed.
  have htrim : (Text.trim (String.ofList (List.replicate marks '#') ++ raw)).toList =
      List.replicate marks '#' ++ (Text.trim raw).toList := by
    rw [Text.trim, Text.trim, String.toList_ofList, String.toList_ofList, String.toList_append,
      String.toList_ofList, Text.trimStart_eq_self hstart, Text.trimStart_eq_self hraw]
    apply Text.trimEnd_append_of_forall
    intro c hc
    rw [hmarks c hc]
    decide
  apply tagName_congr
  rw [@String.append_assoc front, Text.trim_append_blanks hfront hbehind, htrim, withoutMarks,
    List.dropWhile_append_of_pos]
  · rfl
  · intro c hc
    exact decide_eq_true (hmarks c hc)

/-! ## All forms -/

theorem canonicalName_of_isTrimmed {name : String} (h : Text.IsTrimmed name.toList) :
    Document.canonicalName name = if isTagName name then tagName name else qualified name := by
  rw [Document.canonicalName, Text.trimStart_eq_self h.start]
  simp only [isTagName, decide_eq_true_eq]

/-- A name of an item keeps having no mark. -/
theorem isTagName_qualified {raw : String} (h : Unmarked (Text.trim raw).toList) :
    isTagName (qualified raw) = false := by
  have hbody : Unmarked (qualified raw).toList := by
    rw [qualified, String.toList_ofList]
    split
    · next body hmark => exact absurd rfl (h '#' (by rw [hmark]; rfl))
    · exact unmarked_withNamespace h
  exact decide_eq_false fun hmark => hbody '#' hmark rfl

theorem canonicalName_canonicalName (raw : String) :
    Document.canonicalName (Document.canonicalName raw) = Document.canonicalName raw := by
  by_cases hmark : (Text.trimStart raw.toList).head? = some '#'
  · have hname : Document.canonicalName raw = tagName raw := if_pos hmark
    rw [hname, canonicalName_of_isTrimmed (isCanonical_tagName raw).trimmed,
      if_pos (isTagName_tagName raw), tagName_tagName]
  · have hname : Document.canonicalName raw = qualified raw := if_neg hmark
    have hstart : Unmarked (Text.trimStart raw.toList) := by
      rintro c hc rfl
      exact hmark hc
    have hunmarked : Unmarked (Text.trim raw).toList := by
      rw [Text.trim, String.toList_ofList]
      exact hstart.trimEnd
    rw [hname, canonicalName_of_isTrimmed (isCanonical_qualified raw).trimmed,
      isTagName_qualified hunmarked, if_neg Bool.false_ne_true,
      qualified_eq_self (isCanonical_qualified raw)]

theorem isCanonical_canonicalName (raw : String) : IsCanonical (Document.canonicalName raw) := by
  obtain ⟨r, hr⟩ := Document.exists_qualified_canonicalName raw
  rw [hr]
  exact isCanonical_qualified r

/-- The form keeps the name, and so does reading it; the name is one of a tag exactly if it has a mark
in front. -/
structure IsFixed (form : String → String) (name : String) : Prop where
  form_eq : form name = name
  colon : ':' ∈ name.toList
  trimmed : Text.IsTrimmed name.toList
  id_eq : (Material.parse name).id = name
  isTag : (Material.parse name).isTag = true ↔ name.toList.head? = some '#'

theorem IsCanonical.isFixed {form : String → String} {name : String} (h : IsCanonical name)
    (hform : form name = name) : IsFixed form name := by
  have hid : (Material.parse name).id = name := by
    rw [Material.id_parse, Text.trim_eq_self h.trimmed]
  refine ⟨hform, h.colon, h.trimmed, hid, ?_⟩
  rw [Material.isTag_parse, hid, isTagName, decide_eq_true_iff]

/-- The forms that names are brought into are kept from then on, have a namespace and no blanks at
their ends, and are read as they are. That of a tag has one mark, and does not depend on how many
there were nor on blanks around the name. -/
theorem canonical_names_fixed (raw : String) :
    (∀ form ∈ [qualified, tagName, Document.canonicalName], IsFixed form (form raw)) ∧
    (∃ c rest, (tagName raw).toList = '#' :: c :: rest ∧ c ≠ '#') ∧
    ∀ (front behind : String) (marks : Nat), (∀ c ∈ front.toList, Text.isBlank c = true) →
      (∀ c ∈ behind.toList, Text.isBlank c = true) →
      (∀ c ∈ raw.toList.head?, Text.isBlank c = false) →
      tagName (front ++ String.ofList (List.replicate marks '#') ++ raw ++ behind) =
        tagName raw := by
  refine ⟨?_, exists_toList_tagName raw, fun front behind marks hfront hbehind hraw =>
    tagName_append hfront hbehind hraw marks⟩
  simp only [List.forall_mem_cons, List.not_mem_nil, false_imp_iff, implies_true, and_true]
  refine ⟨?_, ?_, ?_⟩
  · exact (isCanonical_qualified raw).isFixed (qualified_eq_self (isCanonical_qualified raw))
  · exact (isCanonical_tagName raw).isFixed (tagName_tagName raw)
  · exact (isCanonical_canonicalName raw).isFixed (canonicalName_canonicalName raw)

/-- A name with a mark, a blank behind it and a blank at its end; two more marks and blanks of other
kinds around it change nothing. -/
theorem canonical_names_fixed_planks :
    let raw := "# oak planks\u2003"
    let name := "#minecraft: oak planks"
    Document.canonicalName ∈ [qualified, tagName, Document.canonicalName] ∧
      Document.canonicalName raw = name ∧ IsFixed Document.canonicalName name ∧
      (∀ c ∈ "\t\u00a0".toList, Text.isBlank c = true) ∧
      (∀ c ∈ "\u3000".toList, Text.isBlank c = true) ∧
      (∀ c ∈ raw.toList.head?, Text.isBlank c = false) ∧
      tagName ("\t\u00a0" ++ String.ofList (List.replicate 2 '#') ++ raw ++ "\u3000") =
        tagName raw := by
  intro raw name
  have hmem : Document.canonicalName ∈ [qualified, tagName, Document.canonicalName] :=
    List.mem_of_getLast? rfl
  have hname : Document.canonicalName raw = name := by decide +kernel
  have hfront : ∀ c ∈ "\t\u00a0".toList, Text.isBlank c = true :=
    List.all_eq_true.1 (by decide +kernel)
  have hbehind : ∀ c ∈ "\u3000".toList, Text.isBlank c = true :=
    List.all_eq_true.1 (by decide +kernel)
  have hraw : ∀ c ∈ raw.toList.head?, Text.isBlank c = false := by
    have hhead : raw.toList.head? = some '#' := by decide +kernel
    rw [hhead]
    rintro c ⟨⟩
    decide
  have hfixed := (canonical_names_fixed raw).1 Document.canonicalName hmem
  rw [hname] at hfixed
  exact ⟨hmem, hname, hfixed, hfront, hbehind, hraw,
    (canonical_names_fixed raw).2.2 _ _ 2 hfront hbehind hraw⟩

end RecipePlanner.Naming

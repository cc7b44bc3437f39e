import Mathlib.Logic.Relation
import RecipePlanner.Proofs.Document.Alternatives

/-!
# The leaves of an ingredient

However deep the lists of an ingredient are nested, its alternatives are the names of its leaves from
left to right, each once (`alternatives_eq_names_of_leaves`). A leaf is named by its text, or by the first
of its members that holds a text in which there is something but blanks (`Names`). All other leaves name
nothing.

So lists within lists are a matter of writing only: an ingredient can be tidied, by putting the items of a
list in place of it into the list around it or by leaving out what names nothing (`Tidies`), and stands
for the same names (`writtenNames_of_tidies`).
-/

namespace RecipePlanner.Document

open Relation

mutual

/-- The values in an ingredient that are no lists, from left to right. -/
def leaves : Json → List Json
  | .list items => allLeaves items
  | .null => [.null]
  | .bool b => [.bool b]
  | .number n => [.number n]
  | .text s => [.text s]
  | .object members => [.object members]

/-- The leaves of the items of a list. -/
def allLeaves : List Json → List Json
  | [] => []
  | v :: vs => leaves v ++ allLeaves vs

end

/-! ## The name of a leaf -/

/-- Something in the text is not blank. -/
def HasWord (raw : String) : Prop := ∃ c ∈ raw.toList, Text.isBlank c = false

/-- The value has a member of this name that holds this text, and something in it is not blank. -/
def Holds (v : Json) (field raw : String) : Prop := v.field? field = some (.text raw) ∧ HasWord raw

/-- The canonical form of a name in a member: that of a tag in `tag`, and one that goes by the mark of the
name itself in any other. -/
def nameIn (field raw : String) : String :=
  if field = "tag" then Naming.tagName raw else canonicalName raw

/-- The leaf stands for this name. -/
inductive Names : Json → String → Prop where
  | text {raw : String} (h : HasWord raw) : Names (.text raw) (canonicalName raw)
  | member {members : List (String × Json)} {earlier later : List String} {field raw : String}
      (hfields : ["item", "tag", "key", "value"] = earlier ++ field :: later)
      (hearlier : ∀ other ∈ earlier, ∀ s, ¬ Holds (.object members) other s)
      (h : Holds (.object members) field raw) : Names (.object members) (nameIn field raw)

theorem isEmptyText_eq_false_iff {raw : String} : isEmptyText raw = false ↔ HasWord raw := by
  simp [isEmptyText, HasWord]

theorem text?_eq_some_iff {v : Json} {raw : String} : v.text? = some raw ↔ v = .text raw := by
  cases v <;> simp [Json.text?]

theorem textAt?_singleton_eq_some_iff {v : Json} {field raw : String} :
    textAt? [field] v = some raw ↔ Holds v field raw := by
  have hvalue : valueAt? [field] v = v.field? field := by simp [valueAt?]
  rw [textAt?, hvalue, Option.filter_eq_some_iff, Option.bind_eq_some_iff, Holds,
    ← isEmptyText_eq_false_iff]
  simp [text?_eq_some_iff]

theorem textAt?_singleton_eq_none_iff {v : Json} {field : String} :
    textAt? [field] v = none ↔ ∀ raw, ¬ Holds v field raw := by
  simp [Option.eq_none_iff_forall_ne_some, textAt?_singleton_eq_some_iff]

/-- The first form of an ingredient that leads to a text is that of the first member that holds one. -/
theorem firstForm?_ingredientForms_eq_some_iff {v : Json} {form : Form} {raw : String} :
    firstForm? ingredientForms v = some (form, raw) ↔
      ∃ earlier field later, ["item", "tag", "key", "value"] = earlier ++ field :: later ∧
        form = [field] ∧ (∀ other ∈ earlier, ∀ s, ¬ Holds v other s) ∧ Holds v field raw := by
  have hforms : ingredientForms = ["item", "tag", "key", "value"].map fun field => [field] := rfl
  rw [firstForm?, hforms, List.findSome?_map, List.findSome?_eq_some_iff]
  simp only [Function.comp_apply, Option.map_eq_some_iff, Option.map_eq_none_iff,
    textAt?_singleton_eq_some_iff, textAt?_singleton_eq_none_iff, Prod.mk.injEq]
  constructor
  · rintro ⟨earlier, field, later, hfields, ⟨_, hholds, rfl, rfl⟩, hearlier⟩
    exact ⟨earlier, field, later, hfields, rfl, hearlier, hholds⟩
  · rintro ⟨earlier, field, later, hfields, rfl, hearlier, hholds⟩
    exact ⟨earlier, field, later, hfields, ⟨raw, hholds, rfl, rfl⟩, hearlier⟩

/-- What is found in a leaf is the name that it stands for. -/
theorem ingredientName?_eq_some_iff {v : Json} {name : String} :
    ingredientName? v = some name ↔ Names v name := by
  constructor
  · intro h
    cases v with
    | text raw =>
      rw [ingredientName?] at h
      split at h
      · cases h
      · next hword =>
        cases h
        exact .text (isEmptyText_eq_false_iff.1 (Bool.eq_false_iff.2 hword))
    | object members =>
      rw [ingredientName?, Option.map_eq_some_iff] at h
      obtain ⟨⟨form, raw⟩, hform, rfl⟩ := h
      obtain ⟨earlier, field, later, hfields, rfl, hearlier, hholds⟩ :=
        firstForm?_ingredientForms_eq_some_iff.1 hform
      have hname : nameIn field raw =
          if [field] = ["tag"] then Naming.tagName raw else canonicalName raw := by simp [nameIn]
      dsimp only
      rw [← hname]
      exact .member hfields hearlier hholds
    | _ => cases h
  · intro h
    cases h with
    | text h => rw [ingredientName?, isEmptyText_eq_false_iff.2 h, if_neg Bool.false_ne_true]
    | @member members earlier later field raw hfields hearlier h =>
      have hform := firstForm?_ingredientForms_eq_some_iff.2
        ⟨earlier, field, later, hfields, rfl, hearlier, h⟩
      simp [ingredientName?, hform, nameIn]

/-! ## Names in written order -/

theorem toList_ingredientName? (leaf : Json) :
    (ingredientName? leaf).toList = [leaf].filterMap ingredientName? := by
  cases h : ingredientName? leaf <;> simp [h]

mutual

/-- The names in an ingredient are those of its leaves. -/
theorem writtenNames_eq_filterMap (v : Json) :
    writtenNames v = (leaves v).filterMap ingredientName? := by
  cases v with
  | list items =>
    rw [writtenNames, leaves]
    exact allWrittenNames_eq_filterMap items
  | null => rfl
  | bool _ => rfl
  | number _ => rfl
  | text s =>
    rw [writtenNames, leaves]
    exact toList_ingredientName? _
  | object members =>
    rw [writtenNames, leaves]
    exact toList_ingredientName? _

theorem allWrittenNames_eq_filterMap (vs : List Json) :
    allWrittenNames vs = (allLeaves vs).filterMap ingredientName? := by
  cases vs with
  | nil => rfl
  | cons v vs =>
    rw [allWrittenNames, allLeaves, List.filterMap_append, writtenNames_eq_filterMap v,
      allWrittenNames_eq_filterMap vs]

end

theorem allWrittenNames_append (vs ws : List Json) :
    allWrittenNames (vs ++ ws) = allWrittenNames vs ++ allWrittenNames ws := by
  induction vs with
  | nil => rfl
  | cons v vs ih => rw [List.cons_append, allWrittenNames, ih, allWrittenNames, List.append_assoc]

/-! ## Tidying -/

/-- No leaf of the value stands for a name. -/
def Nameless (v : Json) : Prop := ∀ leaf ∈ leaves v, ∀ name, ¬ Names leaf name

/-- The second value is the first with the items of an inner list in place of it, or without an item that
names nothing, at any depth. -/
inductive Tidies : Json → Json → Prop where
  | splice (before inner after : List Json) :
      Tidies (.list (before ++ .list inner :: after)) (.list (before ++ inner ++ after))
  | drop (before after : List Json) {v : Json} (h : Nameless v) :
      Tidies (.list (before ++ v :: after)) (.list (before ++ after))
  | within (before after : List Json) {v w : Json} (h : Tidies v w) :
      Tidies (.list (before ++ v :: after)) (.list (before ++ w :: after))

theorem writtenNames_of_nameless {v : Json} (h : Nameless v) : writtenNames v = [] := by
  rw [writtenNames_eq_filterMap, List.filterMap_eq_nil_iff]
  intro leaf hleaf
  rw [Option.eq_none_iff_forall_ne_some]
  intro name hname
  exact h leaf hleaf name (ingredientName?_eq_some_iff.1 hname)

/-- Tidying keeps the names. -/
theorem writtenNames_of_tidies {v w : Json} (h : Tidies v w) : writtenNames v = writtenNames w := by
  induction h with
  | splice before inner after =>
    rw [writtenNames, writtenNames, allWrittenNames_append, allWrittenNames, writtenNames,
      allWrittenNames_append, allWrittenNames_append, List.append_assoc]
  | drop before after h =>
    rw [writtenNames, writtenNames, allWrittenNames_append, allWrittenNames,
      writtenNames_of_nameless h, List.nil_append, allWrittenNames_append]
  | within before after _ ih =>
    rw [writtenNames, writtenNames, allWrittenNames_append, allWrittenNames, ih,
      allWrittenNames_append, allWrittenNames]

theorem alternatives_of_tidied {v w : Json} (h : ReflTransGen Tidies v w) :
    alternatives w = alternatives v := by
  induction h with
  | refl => rfl
  | tail _ hstep ih =>
    rw [← ih, alternatives_eq_firstSeen, alternatives_eq_firstSeen, writtenNames_of_tidies hstep]

/-- An ingredient stands for the names of its leaves from left to right, each once, and tidying it changes
none. A leaf has the name in its text, or in the first of its members that holds one, and in `tag` it is
the name of a tag. Every name has a namespace, and reading it as an identifier keeps it. -/
theorem alternatives_eq_names_of_leaves (v : Json) :
    alternatives v = firstSeen id ((leaves v).filterMap ingredientName?) ∧
    (∀ leaf name, ingredientName? leaf = some name ↔ Names leaf name) ∧
    (∀ raw, Naming.isTagName (nameIn "tag" raw) = true) ∧
    (∀ w, ReflTransGen Tidies v w → alternatives w = alternatives v) ∧
    (alternatives v).Nodup ∧
    ∀ name ∈ alternatives v, ':' ∈ name.toList ∧ (Material.parse name).id = name := by
  refine ⟨?_, ?_, ?_, ?_, nodup_alternatives v, ?_⟩
  · rw [alternatives_eq_firstSeen, writtenNames_eq_filterMap]
  · intro leaf name
    exact ingredientName?_eq_some_iff
  · intro raw
    rw [nameIn, if_pos rfl]
    exact Naming.isTagName_tagName raw
  · intro w
    exact alternatives_of_tidied
  · intro name hname
    exact ⟨colon_mem_of_mem_alternatives hname, id_parse_of_mem_alternatives hname⟩

example :
    let planks := Json.object [("item", .text " "), ("tag", .text "planks")]
    alternatives (.list [.text "coal", .list [planks, .null, .list [.text "minecraft:coal"]],
      .text "#planks", .object [("value", .text "stick")]]) =
      ["minecraft:coal", "#minecraft:planks", "minecraft:stick"] := by decide +kernel

end RecipePlanner.Document

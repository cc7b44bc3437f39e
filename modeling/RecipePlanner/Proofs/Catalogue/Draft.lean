import Mathlib.Data.List.Basic
import RecipePlanner.Catalogue
import RecipePlanner.Proofs.Outcome

/-!
# What a draft holds

A draft is made entry by entry. The values of a tag are those of all its entries one after the
other, in whatever spelling each of them names the tag (`valuesOf_ofEntries`), and a tag is there
exactly if it was entered (`mem_tags_ofEntries_iff`).

When a draft is finished its items are listed one by one. All of them are exactly if they are
`Listable` (`exists_foldlM_listItem_iff`), and the list has them in the order in which they were
entered (`entries_of_foldlM_listItem`).
-/

namespace RecipePlanner.Catalogue

/-- An item or values of a tag, as they are entered into a draft. -/
inductive Entry where
  | item (id : String) (name : Option String)
  | tag (name : String) (values : List String)

namespace Entry

/-- The canonical name of the tag that is entered. -/
def tag? : Entry → Option String
  | item _ _ => none
  | tag name _ => some (Naming.tagName name)

/-- What is entered as values of the tag with this canonical name, without blanks at the ends. -/
def valuesFor (canonical : String) : Entry → List String
  | item _ _ => []
  | tag name values => if Naming.tagName name = canonical then values.map Text.trim else []

theorem trim_of_mem_valuesFor {e : Entry} {canonical value : String}
    (h : value ∈ e.valuesFor canonical) : Text.trim value = value := by
  cases e with
  | item id name => cases h
  | tag name values =>
    rw [valuesFor] at h
    split at h
    · obtain ⟨raw, -, rfl⟩ := List.mem_map.1 h
      exact Text.trim_trim raw
    · cases h

/-- What is entered for a tag comes of an entry of that tag. -/
theorem tag?_of_mem_valuesFor {e : Entry} {canonical value : String}
    (h : value ∈ e.valuesFor canonical) : e.tag? = some canonical := by
  cases e with
  | item id name => cases h
  | tag name values =>
    rw [valuesFor] at h
    split at h
    · next hname => rw [tag?, hname]
    · cases h

end Entry

namespace Draft

/-- The draft with one more entry. -/
def enter (d : Draft) : Entry → Draft
  | .item id name => d.addItem id name
  | .tag name values => d.addTag name values

/-- The draft with these entries, made from first to last. -/
def ofEntries (es : List Entry) : Draft := es.foldl enter empty

/-- The values of a tag, none if it is not there. -/
def valuesOf (tags : TagList) (tag : String) : List String := (tags.lookup tag).getD []

theorem valuesOf_eq_nil {tags : TagList} {tag : String} (h : tag ∉ tags.map (·.1)) :
    valuesOf tags tag = [] := by
  rw [valuesOf, Keyed.lookup_eq_none_iff.2 h]
  rfl

/-- An entry puts its values behind those that its tag has already. -/
theorem valuesOf_enter (d : Draft) (e : Entry) (tag : String) :
    valuesOf (d.enter e).tags tag = valuesOf d.tags tag ++ e.valuesFor tag := by
  cases e with
  | item id name => rw [enter, tags_addItem, Entry.valuesFor, List.append_nil]
  | tag name values =>
    rw [enter, tags_addTag, valuesOf, Keyed.lookup_alter, Entry.valuesFor]
    by_cases h : tag = Naming.tagName name
    · rw [if_pos h, if_pos h.symm, h]
      rfl
    · rw [if_neg h, if_neg (Ne.symm h), List.append_nil]
      rfl

theorem mem_tags_enter_iff (d : Draft) (e : Entry) (tag : String) :
    tag ∈ (d.enter e).tags.map (·.1) ↔ tag ∈ d.tags.map (·.1) ∨ e.tag? = some tag := by
  cases e with
  | item id name => rw [enter, tags_addItem, Entry.tag?, or_iff_left nofun]
  | tag name values =>
    rw [enter, tags_addTag, Keyed.map_fst_alter, Entry.tag?, Option.some.injEq]
    split
    · next hmem =>
      refine ⟨Or.inl, ?_⟩
      rintro (h | rfl)
      · exact h
      · exact hmem
    · rw [List.mem_append, List.mem_singleton, @eq_comm _ tag]

theorem valuesOf_foldl_enter (es : List Entry) (d : Draft) (tag : String) :
    valuesOf (es.foldl enter d).tags tag =
      valuesOf d.tags tag ++ es.flatMap (Entry.valuesFor tag) := by
  induction es generalizing d with
  | nil => rw [List.foldl_nil, List.flatMap_nil, List.append_nil]
  | cons e es ih =>
    rw [List.foldl_cons, ih, valuesOf_enter, List.append_assoc, List.flatMap_cons]

/-- The values of a tag are those of its entries, in order. -/
theorem valuesOf_ofEntries (es : List Entry) (tag : String) :
    valuesOf (ofEntries es).tags tag = es.flatMap (Entry.valuesFor tag) :=
  valuesOf_foldl_enter es empty tag

theorem mem_tags_foldl_enter_iff (es : List Entry) (d : Draft) (tag : String) :
    tag ∈ (es.foldl enter d).tags.map (·.1) ↔
      tag ∈ d.tags.map (·.1) ∨ ∃ e ∈ es, e.tag? = some tag := by
  induction es generalizing d with
  | nil => simp
  | cons e es ih =>
    rw [List.foldl_cons, ih, mem_tags_enter_iff, List.exists_mem_cons_iff, or_assoc]

/-- A tag is there exactly if it was entered. -/
theorem mem_tags_ofEntries_iff (es : List Entry) (tag : String) :
    tag ∈ (ofEntries es).tags.map (·.1) ↔ ∃ e ∈ es, e.tag? = some tag := by
  have hnone : tag ∉ empty.tags.map (·.1) := List.not_mem_nil
  rw [ofEntries, mem_tags_foldl_enter_iff, or_iff_right hnone]

/-! ## Listing items -/

/-- Each item has an identifier that is neither empty nor that of a tag, and none has that of
another. -/
def Listable (items : List Item) : Prop :=
  (∀ i ∈ items, i.id ≠ "" ∧ Naming.isTagName i.id = false) ∧ (items.map (·.id)).Nodup

instance (items : List Item) : Decidable (Listable items) :=
  inferInstanceAs (Decidable (_ ∧ _))

/-- An item is listed if its identifier is that of an item and there is none with it yet. -/
theorem listItem_eq_ok_iff {listed more : Indexed Item.id} {i : Item} :
    listItem listed i = .ok more ↔
      (i.id ≠ "" ∧ Naming.isTagName i.id = false) ∧ listed.insertNew? i = some more := by
  rw [listItem]
  split
  · next hinvalid =>
    refine ⟨nofun, ?_⟩
    rintro ⟨⟨hid, htag⟩, -⟩
    rcases hinvalid with h | h
    · exact absurd h hid
    · cases htag.symm.trans h
  · next hvalid =>
    rw [not_or, Bool.not_eq_true] at hvalid
    rw [and_iff_right hvalid]
    cases listed.insertNew? i with
    | none => exact ⟨nofun, nofun⟩
    | some next => rw [Except.ok.injEq, Option.some.injEq]

theorem entries_of_foldlM_listItem {items : List Item} {listed more : Indexed Item.id}
    (h : items.foldlM listItem listed = .ok more) : more.entries = listed.entries ++ items := by
  induction items generalizing listed with
  | nil =>
    cases h
    exact (List.append_nil _).symm
  | cons i items ih =>
    obtain ⟨next, hnext, h⟩ := Outcome.bind_eq_ok_iff.1 h
    rw [ih h, Indexed.entries_of_insertNew? (listItem_eq_ok_iff.1 hnext).2, List.append_assoc,
      List.singleton_append]

/-- Behind an item its identifier is one of those listed. -/
theorem forall_not_mem_insertNew?_iff {listed next : Indexed Item.id} {i : Item}
    (h : listed.insertNew? i = some next) (items : List Item) :
    (∀ j ∈ items, j.id ∉ next.entries.map Item.id) ↔
      i.id ∉ items.map Item.id ∧ ∀ j ∈ items, j.id ∉ listed.entries.map Item.id := by
  rw [Indexed.entries_of_insertNew? h]
  simp only [List.map_append, List.map_cons, List.map_nil, List.mem_append, List.mem_singleton,
    List.mem_map]
  grind

/-- Items are listed if they are listable and none has the identifier of an item before them. -/
theorem exists_foldlM_listItem_iff {items : List Item} {listed : Indexed Item.id} :
    (∃ more, items.foldlM listItem listed = .ok more) ↔
      Listable items ∧ ∀ i ∈ items, i.id ∉ listed.entries.map Item.id := by
  induction items generalizing listed with
  | nil => simp [Listable, pure, Except.pure]
  | cons i items ih =>
    simp only [List.foldlM_cons, Outcome.bind_eq_ok_iff, listItem_eq_ok_iff]
    constructor
    · rintro ⟨more, next, ⟨hvalid, hnext⟩, h⟩
      have hnew := Indexed.exists_insertNew?_iff.1 ⟨next, hnext⟩
      obtain ⟨⟨hvalids, hnodup⟩, hrest⟩ := ih.1 ⟨more, h⟩
      obtain ⟨hother, hnews⟩ := (forall_not_mem_insertNew?_iff hnext items).1 hrest
      exact ⟨⟨List.forall_mem_cons.2 ⟨hvalid, hvalids⟩, List.nodup_cons.2 ⟨hother, hnodup⟩⟩,
        List.forall_mem_cons.2 ⟨hnew, hnews⟩⟩
    · rintro ⟨⟨hvalid, hnodup⟩, hnew⟩
      obtain ⟨hvalid, hvalids⟩ := List.forall_mem_cons.1 hvalid
      obtain ⟨hother, hnodup⟩ := List.nodup_cons.1 hnodup
      obtain ⟨hnew, hnews⟩ := List.forall_mem_cons.1 hnew
      obtain ⟨next, hnext⟩ := Indexed.exists_insertNew?_iff.2 hnew
      have hrest := (forall_not_mem_insertNew?_iff hnext items).2 ⟨hother, hnews⟩
      obtain ⟨more, h⟩ := ih.2 ⟨⟨hvalids, hnodup⟩, hrest⟩
      exact ⟨more, next, ⟨hvalid, hnext⟩, h⟩

end Draft

end RecipePlanner.Catalogue

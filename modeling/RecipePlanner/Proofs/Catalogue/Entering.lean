import RecipePlanner.Proofs.Catalogue.Members

/-!
# Entries in another order

A catalogue can be finished exactly if its entries are sound (`exists_build_iff`): identifiers of items
that are neither empty nor those of tags and each entered once, and tags with a path. Of the entries only
two things count, the items in their order and what is put down for each tag (`Entry.entered?`). Values
of a tag may come in one entry or in several, under any spelling of the tag and between other entries:
the tags of the draft may then have other places, but each is looked up with the same values
(`lookup_ofEntries`), and flattening a tag depends on nothing else (`flatten_congr`). So the catalogues
answer every question alike (`answers_of_same_entries`).
-/

namespace RecipePlanner.Catalogue

namespace Entry

/-- The item that is entered, with the name that it gets. -/
def item? : Entry → Option Item
  | item id name => some ⟨Text.trim id, name.getD (Naming.display (Text.trim id))⟩
  | tag _ _ => none

/-- What some entries put down for the tag with this canonical name: nothing if none of them names it,
else the values of those that do, one after the other. A tag can be named without any values, and is
a tag of the catalogue then. -/
def entered? (es : List Entry) (canonical : String) : Option (List String) :=
  if ∃ e ∈ es, e.tag? = some canonical then some (es.flatMap (valuesFor canonical)) else none

end Entry

namespace Draft

variable {d : Draft} {es : List Entry} {tags tags' : TagList}

/-! ## Drafts -/

theorem items_enter (d : Draft) (e : Entry) : (d.enter e).items = d.items ++ e.item?.toList := by
  cases e with
  | item id name => rfl
  | tag name values => exact (List.append_nil _).symm

theorem items_foldl_enter (es : List Entry) (d : Draft) :
    (es.foldl enter d).items = d.items ++ es.filterMap Entry.item? := by
  induction es generalizing d with
  | nil => exact (List.append_nil _).symm
  | cons e es ih =>
    rw [List.foldl_cons, ih, items_enter, List.append_assoc]
    cases h : e.item? <;> simp [h]

/-- The items of a draft are those that are entered, in order. -/
theorem items_ofEntries (es : List Entry) : (ofEntries es).items = es.filterMap Entry.item? :=
  items_foldl_enter es empty

/-- A draft has for a tag what its entries put down for it. -/
theorem lookup_ofEntries (es : List Entry) (tag : String) :
    (ofEntries es).tags.lookup tag = Entry.entered? es tag := by
  have hvalues := valuesOf_ofEntries es tag
  rw [valuesOf] at hvalues
  rw [Entry.entered?]
  split
  · next h =>
    have hentered := (mem_tags_ofEntries_iff es tag).2 h
    cases hlookup : (ofEntries es).tags.lookup tag with
    | none => exact absurd hentered (Keyed.lookup_eq_none_iff.1 hlookup)
    | some values =>
      rw [hlookup, Option.getD_some] at hvalues
      rw [hvalues]
  · next h =>
    exact Keyed.lookup_eq_none_iff.2 (mt (mem_tags_ofEntries_iff es tag).1 h)

theorem nodup_tags_foldl_enter (es : List Entry) (h : (d.tags.map (·.1)).Nodup) :
    ((es.foldl enter d).tags.map (·.1)).Nodup := by
  induction es generalizing d with
  | nil => exact h
  | cons e es ih =>
    apply ih
    cases e with
    | item id name => exact h
    | tag name values =>
      rw [enter, tags_addTag]
      exact Keyed.nodup_map_fst_alter _ _ h

/-- No tag has two places in a draft, in whatever spelling it is entered. -/
theorem nodup_tags_ofEntries (es : List Entry) : ((ofEntries es).tags.map (·.1)).Nodup :=
  nodup_tags_foldl_enter es List.nodup_nil

/-! ## Tags in another order -/

section SameLookup

variable (h : ∀ tag, tags.lookup tag = tags'.lookup tag)

include h

theorem length_eq_of_lookup (hnodup : (tags.map (·.1)).Nodup) (hnodup' : (tags'.map (·.1)).Nodup) :
    tags.length = tags'.length := by
  have hperm : (tags.map (·.1)).Perm (tags'.map (·.1)) := by
    apply (List.perm_ext_iff_of_nodup hnodup hnodup').2
    intro tag
    rw [← not_iff_not, ← Keyed.lookup_eq_none_iff, ← Keyed.lookup_eq_none_iff, h tag]
  have hlength := hperm.length_eq
  rwa [List.length_map, List.length_map] at hlength

theorem flatten_congr (hnodup : (tags.map (·.1)).Nodup) (hnodup' : (tags'.map (·.1)).Nodup)
    (tag : String) : flatten tags tag = flatten tags' tag := by
  have hlookup : (tags.lookup ·) = (tags'.lookup ·) := funext h
  rw [flatten, flatten, length_eq_of_lookup h hnodup hnodup', hlookup]

end SameLookup

/-! ## Faults -/

/-- Tags are without fault if each has a path behind its last colon. -/
theorem tagFault?_eq_none_iff {tags : TagList} :
    tagFault? tags = none ↔ ∀ tag ∈ tags.map (·.1), Text.afterLast ':' tag.toList ≠ [] := by
  rw [tagFault?, Option.map_eq_none_iff, List.find?_eq_none, List.forall_mem_map]
  simp

end Draft

/-! ## Entries that can be finished -/

/-- There is a path behind the last colon of the name. -/
def HasPath (tag : String) : Prop :=
  ∃ before path, tag.toList = before ++ ':' :: path ∧ ':' ∉ path ∧ path ≠ []

theorem afterLast_ne_nil_iff {tag : String} (h : ':' ∈ tag.toList) :
    Text.afterLast ':' tag.toList ≠ [] ↔ HasPath tag := by
  constructor
  · intro hpath
    obtain ⟨before, hbefore, hnot⟩ := Text.exists_eq_append_afterLast h
    exact ⟨before, _, hbefore, hnot, hpath⟩
  · rintro ⟨before, path, htag, hnot, hpath⟩
    rwa [htag, Text.afterLast_append hnot]

/-- Every item has an identifier that is neither empty nor that of a tag, none is entered twice, and
every tag has a path. -/
structure Sound (es : List Entry) : Prop where
  items : ∀ i ∈ es.filterMap Entry.item?, i.id ≠ "" ∧ Naming.isTagName i.id = false
  once : ((es.filterMap Entry.item?).map (·.id)).Nodup
  tags : ∀ e ∈ es, ∀ tag ∈ e.tag?, HasPath tag

theorem colon_mem_of_tag? {e : Entry} {tag : String} (h : e.tag? = some tag) :
    ':' ∈ tag.toList := by
  cases e with
  | item id name => cases h
  | tag name values =>
    rw [Entry.tag?, Option.some.injEq] at h
    rw [← h, Naming.tagName]
    exact Naming.colon_mem_qualified _

theorem tagFault?_ofEntries_eq_none_iff {es : List Entry} :
    Draft.tagFault? (Draft.ofEntries es).tags = none ↔ ∀ e ∈ es, ∀ tag ∈ e.tag?, HasPath tag := by
  rw [Draft.tagFault?_eq_none_iff]
  simp only [Draft.mem_tags_ofEntries_iff]
  constructor
  · intro h e he tag htag
    exact (afterLast_ne_nil_iff (colon_mem_of_tag? htag)).1 (h tag ⟨e, he, htag⟩)
  · rintro h tag ⟨e, he, htag⟩
    exact (afterLast_ne_nil_iff (colon_mem_of_tag? htag)).2 (h e he tag htag)

/-- A catalogue is finished exactly if the entries are sound. -/
theorem exists_build_iff (es : List Entry) :
    (∃ c, (Draft.ofEntries es).build = .ok c) ↔ Sound es := by
  simp only [Draft.build_eq_ok_iff, exists_and_left, exists_eq, and_true]
  rw [tagFault?_ofEntries_eq_none_iff, Draft.items_ofEntries]
  constructor
  · rintro ⟨⟨hitems, honce⟩, htags⟩
    exact ⟨hitems, honce, htags⟩
  · rintro ⟨hitems, honce, htags⟩
    exact ⟨⟨hitems, honce⟩, htags⟩

/-! ## Catalogues that answer alike -/

/-- Two catalogues list the same items in the same order and answer every question alike. -/
structure AnswersAlike (c c' : Catalogue) : Prop where
  items : c.items = c'.items
  hasItem : ∀ id, c.hasItem id = c'.hasItem id
  item? : ∀ id, c.item? id = c'.item? id
  displayName : ∀ id, c.displayName id = c'.displayName id
  hasTag : ∀ tag, c.hasTag tag = c'.hasTag tag
  members : ∀ tag, c.members tag = c'.members tag
  resolve : ∀ m, c.resolve m = c'.resolve m

/-- Answers are read off the items and looked up under the names of tags. -/
theorem answersAlike_of_lookup {c c' : Catalogue} (hitems : c.items = c'.items)
    (htags : ∀ tag, c.tags.lookup tag = c'.tags.lookup tag) : c.AnswersAlike c' := by
  have hitem : c.item? = c'.item? := by
    funext id
    rw [item?_eq_find?, item?_eq_find?, hitems]
  have hname : c.displayName = c'.displayName := by
    funext id
    rw [displayName, displayName, hitem]
  have hmembers : c.members = c'.members := by
    funext tag
    rw [members, members, htags, hname]
  constructor
  case items => exact hitems
  case hasItem => simp [hasItem_eq_isSome, hitem]
  case item? => simp [hitem]
  case displayName => simp [hname]
  case hasTag => simp [hasTag, htags]
  case members => simp [hmembers]
  case resolve =>
    intro m
    cases m with
    | item i => rw [resolve, resolve, hname]
    | tag t => rw [resolve, resolve, hmembers]

section SameEntries

variable {es es' : List Entry}

theorem exists_tag?_iff (es : List Entry) (tag : String) :
    (∃ e ∈ es, e.tag? = some tag) ↔ Entry.entered? es tag ≠ none := by
  rw [Entry.entered?]
  split <;> simp [*]

variable (hitems : es.filterMap Entry.item? = es'.filterMap Entry.item?)
  (htags : ∀ tag, Entry.entered? es tag = Entry.entered? es' tag)

include hitems htags

theorem Sound.of_same (h : Sound es) : Sound es' := by
  constructor
  · exact hitems ▸ h.items
  · exact hitems ▸ h.once
  · intro e he tag htag
    have hsome : Entry.entered? es tag ≠ none := by
      rw [htags, ← exists_tag?_iff]
      exact ⟨e, he, htag⟩
    obtain ⟨e', he', htag'⟩ := (exists_tag?_iff es tag).2 hsome
    exact h.tags e' he' tag htag'

theorem answersAlike_of_build {c c' : Catalogue} (h : (Draft.ofEntries es).build = .ok c)
    (h' : (Draft.ofEntries es').build = .ok c') : c.AnswersAlike c' := by
  have hlookup : ∀ tag,
      (Draft.ofEntries es).tags.lookup tag = (Draft.ofEntries es').tags.lookup tag := by
    intro tag
    rw [Draft.lookup_ofEntries, Draft.lookup_ofEntries, htags]
  obtain ⟨-, -, rfl⟩ := Draft.build_eq_ok_iff.1 h
  obtain ⟨-, -, rfl⟩ := Draft.build_eq_ok_iff.1 h'
  apply answersAlike_of_lookup
  · simp only [Draft.items_ofEntries, hitems]
  · intro tag
    have hflatten := Draft.flatten_congr hlookup (Draft.nodup_tags_ofEntries es)
      (Draft.nodup_tags_ofEntries es') tag
    rw [Keyed.lookup_map_key (Draft.flatten (Draft.ofEntries es).tags),
      Keyed.lookup_map_key (Draft.flatten (Draft.ofEntries es').tags), hlookup, hflatten]

end SameEntries

/-- A catalogue is finished exactly if the entries are sound, and all that counts is the items, in
order, and for each tag the values that are put down for it: entries that come to the same are both
finished or neither, and the catalogues answer alike. -/
theorem answers_of_same_entries (es es' : List Entry)
    (hitems : es.filterMap Entry.item? = es'.filterMap Entry.item?)
    (htags : ∀ tag, Entry.entered? es tag = Entry.entered? es' tag) :
    ((∃ c, (Draft.ofEntries es).build = .ok c) ↔ Sound es) ∧
    ((∃ c, (Draft.ofEntries es).build = .ok c) ↔ ∃ c', (Draft.ofEntries es').build = .ok c') ∧
    ∀ c c', (Draft.ofEntries es).build = .ok c → (Draft.ofEntries es').build = .ok c' →
      c.AnswersAlike c' := by
  refine ⟨exists_build_iff es, ?_, fun c c' => answersAlike_of_build hitems htags⟩
  rw [exists_build_iff, exists_build_iff]
  constructor
  · exact Sound.of_same hitems htags
  · exact Sound.of_same hitems.symm fun tag => (htags tag).symm

/-- Planks entered in two parts or in one, in three spellings and before or behind the tag that they
name: the tags have other places in the two catalogues. -/
theorem answers_of_same_entries_planks :
    let es := [Entry.item " stick " none, .tag "planks" ["oak"], .tag "light" [],
      .tag "#minecraft:planks" ["birch", "#light"], .item "log" (some "Log")]
    let es' := [Entry.tag " minecraft:light" [], .item "stick" none,
      .tag "##planks" [" oak", "birch", "#light "], .item "log" (some "Log")]
    let items : List Item := [⟨"stick", "Stick"⟩, ⟨"log", "Log"⟩]
    let c : Catalogue := ⟨items, [("#minecraft:planks", ["oak", "birch"]), ("#minecraft:light", [])]⟩
    let c' : Catalogue := ⟨items, [("#minecraft:light", []), ("#minecraft:planks", ["oak", "birch"])]⟩
    es.filterMap Entry.item? = es'.filterMap Entry.item? ∧
      (∀ tag, Entry.entered? es tag = Entry.entered? es' tag) ∧
      (Draft.ofEntries es).build = .ok c ∧ (Draft.ofEntries es').build = .ok c' ∧
      c.AnswersAlike c' := by
  intro es es' items c c'
  have hitems : es.filterMap Entry.item? = es'.filterMap Entry.item? := by decide +kernel
  have hdraft : (Draft.ofEntries es).tags =
      [("#minecraft:planks", ["oak", "birch", "#light"]), ("#minecraft:light", [])] := by
    decide +kernel
  have hdraft' : (Draft.ofEntries es').tags =
      [("#minecraft:light", []), ("#minecraft:planks", ["oak", "birch", "#light"])] := by
    decide +kernel
  have htags : ∀ tag, Entry.entered? es tag = Entry.entered? es' tag := by
    intro tag
    rw [← Draft.lookup_ofEntries, ← Draft.lookup_ofEntries, hdraft, hdraft']
    simp only [Keyed.lookup_cons]
    grind
  have hbuild : (Draft.ofEntries es).build = .ok c := Draft.build_eq_ok (by decide +kernel)
  have hbuild' : (Draft.ofEntries es').build = .ok c' := Draft.build_eq_ok (by decide +kernel)
  exact ⟨hitems, htags, hbuild, hbuild',
    (answers_of_same_entries es es' hitems htags).2.2 c c' hbuild hbuild'⟩

end RecipePlanner.Catalogue

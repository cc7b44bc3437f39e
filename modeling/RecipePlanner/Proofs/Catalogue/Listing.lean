import RecipePlanner.Catalogue.Folder
import RecipePlanner.Proofs.Catalogue.Entering

/-!
# Catalogues from listings

A listing is entered into a draft with all its items first, so which values of its tags count depends on
the items listed and on nothing else (`ofListing_eq_ofEntries`). A tag of the catalogue therefore has the
items of the tags that are reached from it through values that name tags, as far as these items are
required or listed (`mem_flatten_ofListing_iff`). Every tag on such a way has an entry, because it has a
value, or is the last one and has the item.

A value that names a tag without entries adds nothing to any tag, so it may as well be left out
(`build_withoutUndefined`). Drafts that differ in such values only are `Alike`, and flattening passes over
them.
-/

namespace RecipePlanner.Catalogue

open Relation

/-! ## What tags are listed with -/

section Entries

variable (has : String → TagValue → Prop)

/-- The first tag has a value that names the second. -/
def Names (tag other : String) : Prop :=
  ∃ v, has tag v ∧ Naming.isTagName v.id = true ∧ Naming.tagName v.id = other

/-- The tag has a value for the item, which is required or listed. -/
def Contains (listed : String → Prop) (tag id : String) : Prop :=
  ∃ v, has tag v ∧ v.id = id ∧ (v.required = true ∨ listed id)

end Entries

namespace Listing

/-- The tag has an entry with this value. -/
def HasEntry (l : Listing) (tag : String) (v : TagValue) : Prop :=
  ∃ e ∈ l.tags, Naming.tagName e.id = tag ∧ v ∈ e.values

/-- The item is listed. -/
def HasItem (l : Listing) (id : String) : Prop := id ∈ l.items.map fun e => e.id

/-- The identifiers of items and of values have no blanks at their ends. -/
structure IsTrimmed (l : Listing) : Prop where
  items : ∀ e ∈ l.items, Text.trim e.id = e.id
  values : ∀ e ∈ l.tags, ∀ v ∈ e.values, Text.trim v.id = v.id

theorem IsTrimmed.trim_of_hasEntry {l : Listing} (h : l.IsTrimmed) {tag : String} {v : TagValue}
    (hv : l.HasEntry tag v) : Text.trim v.id = v.id := by
  obtain ⟨e, he, -, hmem⟩ := hv
  exact h.values e he v hmem

/-- The value is required, names a tag, or is for an item that is listed. -/
def Counts (l : Listing) (v : TagValue) : Prop :=
  v.required = true ∨ Naming.isTagName v.id = true ∨
    ∃ e ∈ l.items, Text.trim e.id = Text.trim v.id

/-- The items of the listing as they are entered. -/
def itemEntries (l : Listing) : List Entry := l.items.map fun e => .item e.id e.name

/-- The tags of the listing with the values that are entered. -/
def tagEntries (l : Listing) : List Entry :=
  l.tags.map fun e => .tag e.id ((Draft.ofEntries l.itemEntries).effective e.values)

end Listing

namespace Draft

variable {l : Listing}

/-! ## The draft of a listing -/

/-- Which values count depends on the items entered. -/
theorem effective_congr {d d' : Draft} (h : d.items = d'.items) (values : List TagValue) :
    d.effective values = d'.effective values := by
  simp only [effective, hasItem, h]

theorem foldl_enterTag {d d₀ : Draft} (h : d.items = d₀.items) (es : List TagEntry) :
    es.foldl enterTag d =
      (es.map fun e => Entry.tag e.id (d₀.effective e.values)).foldl enter d := by
  induction es generalizing d with
  | nil => rfl
  | cons e es ih =>
    have hitems : (d.enterTag e).items = d₀.items := h
    rw [List.foldl_cons, ih hitems, List.map_cons, List.foldl_cons, ← effective_congr h]
    rfl

/-- The draft of a listing has its items as entries, and behind them its tags. -/
theorem ofListing_eq_ofEntries (l : Listing) :
    ofListing l = ofEntries (l.itemEntries ++ l.tagEntries) := by
  have hitems : l.items.foldl enterItem empty = ofEntries l.itemEntries := by
    rw [ofEntries, Listing.itemEntries, List.foldl_map]
    rfl
  rw [ofListing, hitems, foldl_enterTag rfl, ofEntries, ofEntries, List.foldl_append]
  rfl

theorem items_ofListing (l : Listing) : (ofListing l).items = (ofEntries l.itemEntries).items := by
  have htags : l.tagEntries.filterMap Entry.item? = [] := by
    simp [Listing.tagEntries, Entry.item?]
  rw [ofListing_eq_ofEntries, items_ofEntries, items_ofEntries, List.filterMap_append, htags,
    List.append_nil]

theorem valuesOf_ofListing (l : Listing) (tag : String) :
    valuesOf (ofListing l).tags tag = l.tags.flatMap fun e =>
      Entry.valuesFor tag (.tag e.id ((ofEntries l.itemEntries).effective e.values)) := by
  have hitems : l.itemEntries.flatMap (Entry.valuesFor tag) = [] := by
    simp [Listing.itemEntries, Entry.valuesFor]
  rw [ofListing_eq_ofEntries, valuesOf_ofEntries, List.flatMap_append, hitems, List.nil_append,
    Listing.tagEntries, List.flatMap_map]

/-- What is entered for a tag are the values that count, without blanks. -/
theorem mem_valuesFor_iff {e : TagEntry} {tag value : String} :
    value ∈ Entry.valuesFor tag (.tag e.id ((ofEntries l.itemEntries).effective e.values)) ↔
      Naming.tagName e.id = tag ∧ ∃ v ∈ e.values, l.Counts v ∧ Text.trim v.id = value := by
  have hcounts : ∀ v : TagValue,
      (v.required || Naming.isTagName v.id || (ofEntries l.itemEntries).hasItem v.id) = true ↔
        l.Counts v := by
    intro v
    rw [hasItem, items_ofEntries, Listing.itemEntries]
    simp [Entry.item?, Listing.Counts, or_assoc]
  rw [Entry.valuesFor, effective]
  split
  · next h => simp [h, hcounts, and_assoc]
  · next h => simp [h]

/-- The values of a tag are those of its entries that count, without blanks. -/
theorem mem_valuesOf_ofListing_iff {tag value : String} :
    value ∈ valuesOf (ofListing l).tags tag ↔
      ∃ v, l.HasEntry tag v ∧ l.Counts v ∧ Text.trim v.id = value := by
  rw [valuesOf_ofListing, List.mem_flatMap]
  simp only [mem_valuesFor_iff]
  constructor
  · rintro ⟨e, he, htag, v, hv, h⟩
    exact ⟨v, ⟨e, he, htag, hv⟩, h⟩
  · rintro ⟨v, ⟨e, he, htag, hv⟩, h⟩
    exact ⟨e, he, htag, v, hv, h⟩

/-- A tag is in the draft exactly if it has an entry, be it one without values. -/
theorem mem_tags_ofListing_iff {tag : String} :
    tag ∈ (ofListing l).tags.map (·.1) ↔ ∃ e ∈ l.tags, Naming.tagName e.id = tag := by
  rw [ofListing_eq_ofEntries, mem_tags_ofEntries_iff]
  simp [Listing.itemEntries, Listing.tagEntries, or_and_right, exists_or, Entry.tag?]

/-! ## Tags that are reached -/

section Trimmed

variable (h : l.IsTrimmed)

include h

theorem refers_ofListing_iff {tag other : String} :
    Refers (ofListing l).tags tag other ↔
      other ∈ (ofListing l).tags.map (·.1) ∧ Names l.HasEntry tag other := by
  rw [Refers]
  refine and_congr_right fun _ => ?_
  constructor
  · rintro ⟨value, hvalue, hmark, hname⟩
    obtain ⟨v, hv, -, rfl⟩ := mem_valuesOf_ofListing_iff.1 hvalue
    rw [h.trim_of_hasEntry hv] at hmark hname
    exact ⟨v, hv, hmark, hname⟩
  · rintro ⟨v, hv, hmark, hname⟩
    have hvalue : v.id ∈ valuesOf (ofListing l).tags tag :=
      mem_valuesOf_ofListing_iff.2 ⟨v, hv, Or.inr (Or.inl hmark), h.trim_of_hasEntry hv⟩
    exact ⟨v.id, hvalue, hmark, hname⟩

theorem hasItem_ofListing_iff {tag id : String} :
    HasItem (ofListing l).tags tag id ↔
      Contains l.HasEntry l.HasItem tag id ∧ Naming.isTagName id = false := by
  have hlisted : ∀ v : TagValue, Text.trim v.id = v.id →
      ((∃ e ∈ l.items, Text.trim e.id = Text.trim v.id) ↔ l.HasItem v.id) := by
    intro v hv
    rw [hv, Listing.HasItem, List.mem_map]
    exact exists_congr fun e => and_congr_right fun he => by rw [h.items e he]
  rw [HasItem, mem_valuesOf_ofListing_iff]
  refine and_congr_left fun hitem => ?_
  constructor
  · rintro ⟨v, hv, hcounts, rfl⟩
    have htrim := h.trim_of_hasEntry hv
    rw [htrim] at hitem ⊢
    refine ⟨v, hv, rfl, ?_⟩
    rcases hcounts with hrequired | hmark | hlist
    · exact Or.inl hrequired
    · rw [hmark] at hitem
      cases hitem
    · exact Or.inr ((hlisted v htrim).1 hlist)
  · rintro ⟨v, hv, rfl, hcounts⟩
    have htrim := h.trim_of_hasEntry hv
    refine ⟨v, hv, ?_, htrim⟩
    exact hcounts.imp_right fun hlist => Or.inr ((hlisted v htrim).2 hlist)

/-- A tag that names another one has an entry, so every tag on a way to one that has an entry does. -/
theorem reflTransGen_refers_iff {tag other : String}
    (hother : other ∈ (ofListing l).tags.map (·.1)) :
    ReflTransGen (Refers (ofListing l).tags) tag other ↔
      ReflTransGen (Names l.HasEntry) tag other := by
  constructor
  · intro hreach
    exact hreach.lift id fun _ _ hstep => ((refers_ofListing_iff h).1 hstep).2
  · intro hreach
    induction hreach using ReflTransGen.head_induction_on with
    | refl => exact .refl
    | @head tag next hstep hrest ih =>
      have hnext : next ∈ (ofListing l).tags.map (·.1) := by
        rcases hrest.cases_head with rfl | ⟨_, ⟨_, ⟨e, he, hname, _⟩, _⟩, _⟩
        · exact hother
        · exact mem_tags_ofListing_iff.2 ⟨e, he, hname⟩
      exact .head ((refers_ofListing_iff h).2 ⟨hnext, hstep⟩) ih

/-- The items of a tag are those of the tags that are reached from it through values that name tags,
as far as they are required or listed. -/
theorem mem_flatten_ofListing_iff {tag id : String} (hid : Naming.isTagName id = false) :
    id ∈ flatten (ofListing l).tags tag ↔
      ∃ other, ReflTransGen (Names l.HasEntry) tag other ∧
        Contains l.HasEntry l.HasItem other id := by
  rw [mem_flatten_iff]
  refine exists_congr fun other => ?_
  rw [hasItem_ofListing_iff h, and_iff_left hid]
  refine and_congr_left fun hcontains => reflTransGen_refers_iff h ?_
  obtain ⟨v, ⟨e, he, hname, -⟩, -⟩ := hcontains
  exact mem_tags_ofListing_iff.2 ⟨e, he, hname⟩

end Trimmed

end Draft

/-! ## Values that name tags without entries -/

namespace Listing

/-- The value is optional and names a tag without entries. -/
def isUndefined (l : Listing) (v : TagValue) : Bool :=
  !v.required && Naming.isTagName v.id &&
    l.tags.all fun e => Naming.tagName e.id ≠ Naming.tagName v.id

/-- The listing without the optional values that name tags without entries. -/
def withoutUndefined (l : Listing) : Listing :=
  { l with tags := l.tags.map fun e =>
      { e with values := e.values.filter fun v => !l.isUndefined v } }

end Listing

namespace Draft

variable {tags tags' : TagList}

/-- The value is an item, or names a tag that is there. -/
def isDefined (tags : TagList) (value : String) : Bool :=
  !Naming.isTagName value || decide (Naming.tagName value ∈ tags.map (·.1))

/-- The same tags are there, in the same order, and with the same values except for such as name tags
that are not there. -/
structure Alike (tags tags' : TagList) : Prop where
  names : tags.map (·.1) = tags'.map (·.1)
  values : ∀ tag, (valuesOf tags tag).filter (isDefined tags) =
    (valuesOf tags' tag).filter (isDefined tags)

theorem foldl_gatherValue_filter {gatherTag : String → List String → List String}
    (h : ∀ tag found, tag ∉ tags.map (·.1) → gatherTag tag found = found)
    (values found : List String) :
    (values.filter (isDefined tags)).foldl (gatherValue gatherTag) found =
      values.foldl (gatherValue gatherTag) found := by
  have hstep : (fun found value =>
      if isDefined tags value = true then gatherValue gatherTag found value else found) =
        gatherValue gatherTag := by
    funext found value
    split
    · rfl
    · next hundefined =>
      rw [isDefined, Bool.or_eq_true, not_or, Bool.not_eq_true', Bool.not_eq_false,
        decide_eq_true_iff] at hundefined
      rw [gatherValue, if_pos hundefined.1, h _ _ hundefined.2]
  rw [List.foldl_filter, hstep]

namespace Alike

variable (h : Alike tags tags')

include h

theorem gather_eq (levels : Nat) (lineage : List String) (tag : String) (found : List String) :
    gather (tags.lookup ·) levels lineage tag found =
      gather (tags'.lookup ·) levels lineage tag found := by
  induction levels generalizing lineage tag found with
  | zero => rfl
  | succ n ih =>
    have hsame : gather (tags.lookup ·) n = gather (tags'.lookup ·) n := by
      funext lineage tag found
      exact ih lineage tag found
    by_cases hentered : tag ∈ tags.map (·.1)
    · by_cases hmem : tag ∈ lineage
      · rw [gather_of_mem_lineage hmem, gather_of_mem_lineage hmem]
      · have hnothing : ∀ other found, other ∉ tags.map (·.1) →
            gather (tags.lookup ·) n (tag :: lineage) other found = found :=
          fun other found hother => gather_of_not_mem hother n _ found
        rw [gather_succ hentered hmem, gather_succ (h.names ▸ hentered) hmem, ← hsame,
          ← foldl_gatherValue_filter hnothing, h.values, foldl_gatherValue_filter hnothing]
    · rw [gather_of_not_mem hentered, gather_of_not_mem (h.names ▸ hentered)]

theorem flatten_eq (tag : String) : flatten tags tag = flatten tags' tag := by
  have hlength : tags.length = tags'.length := by
    have hnames := congrArg List.length h.names
    rwa [List.length_map, List.length_map] at hnames
  rw [flatten, flatten, hlength, h.gather_eq]

end Alike

/-- Faults of tags are found by their names. -/
theorem tagFault?_eq (tags : TagList) :
    tagFault? tags =
      ((tags.map (·.1)).find? fun t => Text.afterLast ':' t.toList = []).map .invalidTag := by
  rw [tagFault?, List.find?_map, Option.map_map]
  rfl

/-- Drafts that differ in values that name tags which are not there are finished alike. -/
theorem build_eq_of_alike {d d' : Draft} (hitems : d.items = d'.items) (h : Alike d.tags d'.tags) :
    d.build = d'.build := by
  have hflatten : flatten d.tags = flatten d'.tags := funext h.flatten_eq
  rw [build, build, flattened_eq_flatten, flattened_eq_flatten, tagFault?_eq, tagFault?_eq,
    Keyed.map_key_eq (flatten d.tags), Keyed.map_key_eq (flatten d'.tags), hitems, h.names, hflatten]

/-! ## Leaving them out -/

/-- The tags of a draft depend on the tags that are entered, not on their values. -/
theorem map_fst_foldl_enter_congr {es es' : List Entry}
    (h : es.map Entry.tag? = es'.map Entry.tag?) {d d' : Draft}
    (hd : d.tags.map (·.1) = d'.tags.map (·.1)) :
    (es.foldl enter d).tags.map (·.1) = (es'.foldl enter d').tags.map (·.1) := by
  have hstep : ∀ {e e' : Entry} {d d' : Draft}, e.tag? = e'.tag? →
      d.tags.map (·.1) = d'.tags.map (·.1) →
      (d.enter e).tags.map (·.1) = (d'.enter e').tags.map (·.1) := by
    intro e e' d d' he hd
    cases e with
    | item id name =>
      cases e' with
      | item id' name' => exact hd
      | tag name' values' => cases he
    | tag name values =>
      cases e' with
      | item id' name' => cases he
      | tag name' values' =>
        rw [enter, enter, tags_addTag, tags_addTag, Keyed.map_fst_alter, Keyed.map_fst_alter, hd,
          Option.some.inj he]
  induction es generalizing es' d d' with
  | nil =>
    rw [List.map_eq_nil_iff.1 h.symm]
    exact hd
  | cons e es ih =>
    cases es' with
    | nil => cases h
    | cons e' es' =>
      obtain ⟨he, hes⟩ := List.cons.inj h
      exact ih hes (hstep he hd)

theorem isDefined_eq_false {l : Listing} {v : TagValue} (h : l.isUndefined v = true) :
    isDefined (ofListing l).tags (Text.trim v.id) = false := by
  simp only [Listing.isUndefined, Bool.and_eq_true, List.all_eq_true, decide_eq_true_eq] at h
  obtain ⟨⟨-, hmark⟩, hundefined⟩ := h
  have hnot : Naming.tagName v.id ∉ (ofListing l).tags.map (·.1) := by
    rw [mem_tags_ofListing_iff]
    rintro ⟨e, he, hname⟩
    exact hundefined e he hname
  rw [isDefined, Naming.isTagName_trim hmark, Naming.tagName_trim, decide_eq_false hnot]
  rfl

/-- Leaving the values out changes nothing but values that name tags which are not there. -/
theorem alike_withoutUndefined (l : Listing) :
    Alike (ofListing l).tags (ofListing l.withoutUndefined).tags := by
  constructor
  case names =>
    rw [ofListing_eq_ofEntries, ofListing_eq_ofEntries]
    refine map_fst_foldl_enter_congr ?_ rfl
    simp [Listing.itemEntries, Listing.tagEntries, Listing.withoutUndefined, Entry.tag?]
  case values =>
    intro tag
    have hitems : l.withoutUndefined.itemEntries = l.itemEntries := rfl
    rw [valuesOf_ofListing, valuesOf_ofListing, hitems, Listing.withoutUndefined, List.flatMap_map,
      List.filter_flatMap, List.filter_flatMap]
    refine List.flatMap_congr fun e _ => ?_
    rw [Entry.valuesFor, Entry.valuesFor]
    split
    · simp only [effective, List.filter_map, List.filter_filter]
      -- What is left out does not pass the filter anyway.
      congr 2
      refine List.filter_congr fun v _ => ?_
      cases hundefined : l.isUndefined v with
      | false => rw [Bool.not_false, Bool.and_true]
      | true => simp [isDefined_eq_false hundefined]
    · rfl

end Draft

/-- Optional values that name tags without entries contribute nothing to a catalogue, and cause no
fault. -/
theorem build_withoutUndefined (l : Listing) :
    (Draft.ofListing l.withoutUndefined).build = (Draft.ofListing l).build := by
  refine (Draft.build_eq_of_alike ?_ (Draft.alike_withoutUndefined l)).symm
  rw [Draft.items_ofListing, Draft.items_ofListing]
  rfl

end RecipePlanner.Catalogue

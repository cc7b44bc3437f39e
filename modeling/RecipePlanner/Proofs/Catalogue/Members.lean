import Mathlib.Data.Finset.Basic
import Mathlib.Data.Finset.Dedup
import RecipePlanner.Proofs.Catalogue.Flattening

/-!
# The items that a tag stands for

A catalogue that is finished from a sequence of entries has for every tag the items of all tags that
can be reached from it, each once (`members_eq_reached`). Tags are compared in their canonical form,
and a tag that is named but was never entered adds nothing.

The levels of `gather` bound it for the sake of its definition only. The same items are found by a
walk without levels that keeps one set of the tags being flattened, puts a tag in when it enters it
and takes it out behind (`Visits`). On every draft the walk ends, in one way only, and leaves the set
as it was (`visits_iff`).

A draft is finished exactly if its items can be listed and its tags have paths (`build_eq_ok_iff`). The
index of the items that are listed then is the one by which the catalogue finds them
(`listed_of_build`).
-/

namespace RecipePlanner.Catalogue

open Relation

/-! ## A walk without levels -/

/-- Where a walk over nested tags stands: the tags being flattened, the items met so far, and these
items in the order in which they were met. -/
structure Stand where
  visiting : Finset String
  seen : Finset String
  found : List String

namespace Stand

def enter (s : Stand) (tag : String) : Stand := { s with visiting := insert tag s.visiting }

def leave (s : Stand) (tag : String) : Stand := { s with visiting := s.visiting.erase tag }

/-- An item that was met already is passed over. -/
def meet (s : Stand) (id : String) : Stand :=
  if id ∈ s.seen then s else { s with seen := insert id s.seen, found := s.found ++ [id] }

/-- Where the walk stands below a lineage with these items found. -/
def below (lineage found : List String) : Stand := ⟨lineage.toFinset, found.toFinset, found⟩

variable {lineage : List String}

theorem enter_below (found : List String) (tag : String) :
    (below lineage found).enter tag = below (tag :: lineage) found := by
  rw [enter, below, below, List.toFinset_cons]

theorem leave_below {tag : String} (h : tag ∉ lineage) (found : List String) :
    (below (tag :: lineage) found).leave tag = below lineage found := by
  rw [leave, below, below, List.toFinset_cons, Finset.erase_insert (mt List.mem_toFinset.1 h)]

theorem meet_below (found : List String) (id : String) :
    (below lineage found).meet id = below lineage (if id ∈ found then found else found ++ [id]) := by
  by_cases h : id ∈ found
  · have hseen : id ∈ (below lineage found).seen := List.mem_toFinset.2 h
    rw [meet, if_pos hseen, if_pos h]
  · have hnew : id ∉ (below lineage found).seen := mt List.mem_toFinset.1 h
    have hseen : insert id found.toFinset = (found ++ [id]).toFinset := by
      ext other
      rw [Finset.mem_insert, List.mem_toFinset, List.mem_toFinset, List.mem_append,
        List.mem_singleton, or_comm]
    rw [meet, if_neg hnew, if_neg h, below, below, hseen]

end Stand

mutual

/-- From the first stand, the walk over a tag ends with the second. -/
inductive Visits (tags : TagList) : Stand → (tag : String) → Stand → Prop where
  | missing {s : Stand} {tag : String} (h : tags.lookup tag = none) : Visits tags s tag s
  | again {s : Stand} {tag : String} {values : List String} (h : tags.lookup tag = some values)
      (hmem : tag ∈ s.visiting) : Visits tags s tag s
  | enter {s s' : Stand} {tag : String} {values : List String}
      (h : tags.lookup tag = some values) (hnew : tag ∉ s.visiting)
      (hvalues : VisitsAll tags (s.enter tag) values s') : Visits tags s tag (s'.leave tag)

/-- From the first stand, the walk over the values of a tag ends with the second. -/
inductive VisitsAll (tags : TagList) : Stand → (values : List String) → Stand → Prop where
  | nil {s : Stand} : VisitsAll tags s [] s
  | tag {s s' s'' : Stand} {value : String} {values : List String}
      (h : Naming.isTagName value = true) (hfirst : Visits tags s (Naming.tagName value) s')
      (hrest : VisitsAll tags s' values s'') : VisitsAll tags s (value :: values) s''
  | item {s s' : Stand} {value : String} {values : List String}
      (h : Naming.isTagName value = false) (hrest : VisitsAll tags (s.meet value) values s') :
      VisitsAll tags s (value :: values) s'

end

variable {tags : TagList}

/-- A walk over a tag can end in one way only. -/
theorem Visits.unique {s s₁ s₂ : Stand} {tag : String} (h₁ : Visits tags s tag s₁)
    (h₂ : Visits tags s tag s₂) : s₁ = s₂ := by
  -- The induction goes over walks of both kinds; the rules are told apart by what they ask for.
  refine @Visits.rec tags (fun s tag s₁ _ => ∀ s₂, Visits tags s tag s₂ → s₁ = s₂)
    (fun s values s₁ _ => ∀ s₂, VisitsAll tags s values s₂ → s₁ = s₂)
    ?missing ?again ?enter ?nil ?tag ?item s tag s₁ h₁ s₂ h₂
  case missing =>
    intro s tag hnone s₂ h₂
    cases h₂ with
    | missing _ => rfl
    | again hsome _ => exact nomatch hnone.symm.trans hsome
    | enter hsome _ _ => exact nomatch hnone.symm.trans hsome
  case again =>
    intro s tag values hsome hmem s₂ h₂
    cases h₂ with
    | missing _ => rfl
    | again _ _ => rfl
    | enter _ hnew _ => exact absurd hmem hnew
  case enter =>
    intro s s' tag values hsome hnew hvalues ih s₂ h₂
    cases h₂ with
    | missing hnone => exact nomatch hnone.symm.trans hsome
    | again _ hmem => exact absurd hmem hnew
    | enter hsome' _ hvalues' =>
      obtain rfl := Option.some.inj (hsome.symm.trans hsome')
      rw [ih _ hvalues']
  case nil =>
    intro s s₂ h₂
    cases h₂ with
    | nil => rfl
  case tag =>
    intro s s' s'' value values htag _ _ ihfirst ihrest s₂ h₂
    cases h₂ with
    | tag _ hfirst' hrest' =>
      obtain rfl := ihfirst _ hfirst'
      exact ihrest _ hrest'
    | item hitem _ => exact nomatch htag.symm.trans hitem
  case item =>
    intro s s' value values hitem _ ihrest s₂ h₂
    cases h₂ with
    | tag htag _ _ => exact nomatch htag.symm.trans hitem
    | item _ hrest' => exact ihrest _ hrest'

namespace Draft

/-- The walk over values finds what `gatherValue` does, if the walks over tags do. -/
theorem visitsAll_foldl {gatherTag : String → List String → List String} {lineage : List String}
    (h : ∀ tag found, Visits tags (.below lineage found) tag (.below lineage (gatherTag tag found)))
    (values found : List String) :
    VisitsAll tags (.below lineage found) values
      (.below lineage (values.foldl (gatherValue gatherTag) found)) := by
  induction values generalizing found with
  | nil => exact .nil
  | cons value values ih =>
    rw [List.foldl_cons, gatherValue]
    cases hvalue : Naming.isTagName value with
    | true => exact .tag hvalue (h _ found) (ih _)
    | false =>
      refine .item hvalue ?_
      rw [Stand.meet_below]
      exact ih _

/-- While there is room, the walk over a tag finds what `gather` does and leaves the set as it
was. -/
theorem visits_gather {levels : Nat} {lineage : List String} (hroom : Room tags levels lineage)
    (tag : String) (found : List String) :
    Visits tags (.below lineage found) tag
      (.below lineage (gather (tags.lookup ·) levels lineage tag found)) := by
  induction levels using Nat.strong_induction_on generalizing lineage tag found with
  | _ levels ih =>
    cases hvalues : tags.lookup tag with
    | none =>
      rw [gather_of_not_mem (Keyed.lookup_eq_none_iff.1 hvalues)]
      exact .missing hvalues
    | some values =>
      by_cases hmem : tag ∈ lineage
      · rw [gather_of_mem_lineage hmem]
        exact .again hvalues (List.mem_toFinset.2 hmem)
      · have hentered : tag ∈ tags.map (·.1) := by
          by_contra hn
          exact nomatch (Keyed.lookup_eq_none_iff.2 hn).symm.trans hvalues
        obtain ⟨n, rfl, hroom'⟩ := hroom.exists_room_cons hentered hmem
        -- The tag is new to the lineage, so taking it out behind its values restores the set.
        have hinner := visitsAll_foldl (ih n (Nat.lt_succ_self n) hroom') values found
        have hnew : tag ∉ (Stand.below lineage found).visiting := mt List.mem_toFinset.1 hmem
        rw [← Stand.enter_below] at hinner
        have houter := Visits.enter hvalues hnew hinner
        rw [Stand.leave_below hmem] at houter
        rw [gather_succ hentered hmem, valuesOf, hvalues]
        exact houter

/-- From the start, the walk over a tag ends with its items and with no tag being flattened. -/
theorem visits_iff {tag : String} {s : Stand} :
    Visits tags (.below [] []) tag s ↔ s = .below [] (flatten tags tag) := by
  have hends : Visits tags (.below [] []) tag (.below [] (flatten tags tag)) :=
    visits_gather (room_nil tags) tag []
  constructor
  · intro h
    exact h.unique hends
  · rintro rfl
    exact hends

/-! ## Finished catalogues -/

/-- A draft without faults is finished with its items and with its tags flattened. -/
theorem build_eq_ok_iff {d : Draft} {c : Catalogue} :
    d.build = .ok c ↔ Listable d.items ∧ tagFault? d.tags = none ∧
      c = ⟨d.items, d.tags.map fun (t, _) => (t, flatten d.tags t)⟩ := by
  have hlistable : (∃ listed, d.items.foldlM listItem .empty = .ok listed) ↔ Listable d.items := by
    rw [exists_foldlM_listItem_iff, and_iff_left]
    exact fun i _ => List.not_mem_nil
  have hentries : ∀ {listed}, d.items.foldlM listItem .empty = .ok listed →
      listed.entries = d.items := entries_of_foldlM_listItem
  rw [build, Outcome.bind_eq_ok_iff, ← hlistable, flattened_eq_flatten]
  cases tagFault? d.tags with
  | some fault =>
    constructor
    · rintro ⟨_, _, h⟩
      cases h
    · rintro ⟨-, h, -⟩
      cases h
  | none =>
    constructor
    · rintro ⟨listed, hlisted, h⟩
      refine ⟨⟨listed, hlisted⟩, rfl, ?_⟩
      rw [← hentries hlisted]
      exact (Except.ok.inj h).symm
    · rintro ⟨⟨listed, hlisted⟩, -, rfl⟩
      refine ⟨listed, hlisted, ?_⟩
      rw [← hentries hlisted]
      rfl

/-- A finished catalogue has the items that were listed and looks them up at the places that were
noted for them then. -/
theorem listed_of_build {d : Draft} {c : Catalogue} (h : d.build = .ok c) {listed : Indexed Item.id}
    (hlisted : d.items.foldlM listItem .empty = .ok listed) :
    c.items = listed.entries ∧ ∀ id, c.listed.index.lookup id = listed.index.lookup id := by
  obtain ⟨-, -, rfl⟩ := build_eq_ok_iff.1 h
  have hentries : d.items = listed.entries := (entries_of_foldlM_listItem hlisted).symm
  exact ⟨hentries, Indexed.lookup_index_congr hentries⟩

/-- What a draft is finished with can be told part by part. -/
theorem build_eq_ok {d : Draft} {c : Catalogue}
    (h : Listable d.items ∧ tagFault? d.tags = none ∧ c.items = d.items ∧
      c.tags = d.tags.map fun (t, _) => (t, flatten d.tags t)) : d.build = .ok c := by
  obtain ⟨hlistable, htagFault, hitems, htags⟩ := h
  rw [build_eq_ok_iff, ← hitems, ← htags]
  exact ⟨hitems ▸ hlistable, htagFault, rfl⟩

/-- The identifiers of a tag's members, listed or not. -/
theorem map_id_members {d : Draft} {c : Catalogue} (h : d.build = .ok c) (tag : String) :
    (c.members tag).map (·.id) = flatten d.tags (Naming.tagName tag) := by
  have hids : (c.members tag).map (·.id) = (c.tags.lookup (Naming.tagName tag)).getD [] := by
    rw [members, List.map_map]
    exact List.map_id' _
  obtain ⟨-, -, rfl⟩ := build_eq_ok_iff.1 h
  rw [hids, Keyed.lookup_map_key (flatten d.tags)]
  cases hvalues : d.tags.lookup (Naming.tagName tag) with
  | some values => rfl
  | none => exact (gather_of_not_mem (Keyed.lookup_eq_none_iff.1 hvalues) _ _ _).symm

end Draft

/-! ## Entries -/

/-- The first tag has an entry that names the second, and the second was entered too. -/
def Nests (es : List Entry) (tag other : String) : Prop :=
  (∃ e ∈ es, e.tag? = some other) ∧
    ∃ value ∈ es.flatMap (Entry.valuesFor tag),
      Naming.isTagName value = true ∧ Naming.tagName value = other

/-- The tag has an entry with this item among its values. -/
def Lists (es : List Entry) (tag id : String) : Prop :=
  id ∈ es.flatMap (Entry.valuesFor tag) ∧ Naming.isTagName id = false

theorem refers_ofEntries (es : List Entry) : Draft.Refers (Draft.ofEntries es).tags = Nests es := by
  funext tag other
  rw [Draft.Refers, Draft.valuesOf_ofEntries, Draft.mem_tags_ofEntries_iff, Nests]

theorem hasItem_ofEntries (es : List Entry) :
    Draft.HasItem (Draft.ofEntries es).tags = Lists es := by
  funext tag id
  rw [Draft.HasItem, Draft.valuesOf_ofEntries, Lists]

/-- The members of a tag have the names of items, without blanks at the ends. -/
theorem name_of_mem_members {es : List Entry} {c : Catalogue}
    (h : (Draft.ofEntries es).build = .ok c) {tag : String} {m : Item} (hm : m ∈ c.members tag) :
    Naming.isTagName m.id = false ∧ Text.trim m.id = m.id := by
  have hid : m.id ∈ Draft.flatten (Draft.ofEntries es).tags (Naming.tagName tag) := by
    rw [← Draft.map_id_members h]
    exact List.mem_map_of_mem hm
  obtain ⟨other, -, hlists⟩ := Draft.mem_flatten_iff.1 hid
  rw [hasItem_ofEntries] at hlists
  obtain ⟨e, -, he⟩ := List.mem_flatMap.1 hlists.1
  exact ⟨hlists.2, Entry.trim_of_mem_valuesFor he⟩

/-- A tag stands for the items of the tags that are reached from it through tags that name each
other, each item once. The walk over nested tags ends with these items, and with nothing else. -/
theorem members_eq_reached {es : List Entry} {c : Catalogue}
    (h : (Draft.ofEntries es).build = .ok c) (tag : String) :
    let ids := (c.members tag).map (·.id)
    (∀ s, Visits (Draft.ofEntries es).tags ⟨∅, ∅, []⟩ (Naming.tagName tag) s ↔
      s = ⟨∅, ids.toFinset, ids⟩) ∧
    ids.Nodup ∧
    ∀ id, id ∈ ids ↔
      ∃ other, ReflTransGen (Nests es) (Naming.tagName tag) other ∧ Lists es other id := by
  intro ids
  have hids : ids = Draft.flatten (Draft.ofEntries es).tags (Naming.tagName tag) :=
    Draft.map_id_members h tag
  rw [hids]
  refine ⟨fun s => Draft.visits_iff, Draft.nodup_flatten _, fun id => ?_⟩
  rw [Draft.mem_flatten_iff, refers_ofEntries, hasItem_ofEntries]

/-- Two tags that name each other, and one that was never entered, give both the same items. -/
theorem members_eq_reached_cycle :
    let es := [Entry.tag "#a:one" ["#a:two", "a:x"], Entry.tag "a:two" ["#a:one", "#a:missing", "a:y"]]
    let c : Catalogue := ⟨[], [("#a:one", ["a:y", "a:x"]), ("#a:two", ["a:x", "a:y"])]⟩
    (Draft.ofEntries es).build = .ok c ∧
      ∀ id, id ∈ (c.members "a:one").map (·.id) ↔
        ∃ other, ReflTransGen (Nests es) (Naming.tagName "a:one") other ∧ Lists es other id := by
  intro es c
  have htags : c.tags = (Draft.ofEntries es).tags.map fun (t, _) =>
      (t, Draft.flatten (Draft.ofEntries es).tags t) := by decide +kernel
  have hbuild : (Draft.ofEntries es).build = .ok c :=
    Draft.build_eq_ok_iff.2 ⟨by decide +kernel, by decide +kernel, congrArg (Catalogue.mk []) htags⟩
  exact ⟨hbuild, (members_eq_reached hbuild "a:one").2.2⟩

end RecipePlanner.Catalogue

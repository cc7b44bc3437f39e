import Mathlib.Order.WellFoundedSet
import RecipePlanner.FirstSeen
import RecipePlanner.Proofs.Catalogue.Members

/-!
# Tags put together from their values

Flattening a tag walks through all tags below it with one list of items found, so what a nested tag adds
depends on what was found before. As long as no tag leads back to itself, that is the only way in which it
does: a nested tag adds (`Adds`) the items that it has on its own, as far as they were not found before
(`spreads_of_acyclic`). So the items of a tag are those of its values, one value after the other, each
item once (`members_eq_composed`).

The proof goes up from the tags that name no others. Above a tag of which this is known for all tags that
it names, the lineage holds none of these, because a tag of the lineage below would be a way back.
-/

namespace RecipePlanner.Catalogue

open Relation

namespace Draft

variable {tags : TagList} {tag : String}

/-- No tag leads back to itself through the tags that it names. -/
def Acyclic (tags : TagList) : Prop := ∀ tag, ¬ TransGen (Refers tags) tag tag

/-- What a value of a tag stands for: an item for itself, a tag for its items. -/
def itemsOf (tags : TagList) (value : String) : List String :=
  if Naming.isTagName value then flatten tags (Naming.tagName value) else [value]

/-- The lineage holds no tag that the given one leads to. -/
def Apart (tags : TagList) (lineage : List String) (tag : String) : Prop :=
  ∀ other ∈ lineage, ¬ ReflTransGen (Refers tags) tag other

/-- A step that adds these items, in order, as far as they were not found before. -/
def Adds (step : List String → List String) (items : List String) : Prop :=
  ∀ found, step found = found ++ firstSeenAfter id found items

/-- Below every lineage that it stays apart from, the tag adds the items that it has on its own. -/
def Spreads (tags : TagList) (tag : String) : Prop :=
  ∀ levels lineage, Room tags levels lineage → Apart tags lineage tag →
    Adds (gather (tags.lookup ·) levels lineage tag) (flatten tags tag)

theorem Apart.not_mem {lineage : List String} (h : Apart tags lineage tag) : tag ∉ lineage :=
  fun hmem => h tag hmem .refl

theorem apart_nil (tags : TagList) (tag : String) : Apart tags [] tag :=
  List.forall_mem_nil _

/-- A tag that is named stays apart from the tag that names it, too, or there would be a way back. -/
theorem Apart.cons {lineage : List String} {other : String} (h : Apart tags lineage tag)
    (hacyclic : Acyclic tags) (hrefers : Refers tags tag other) :
    Apart tags (tag :: lineage) other := by
  intro above habove hreach
  rcases List.mem_cons.1 habove with rfl | hmem
  · exact hacyclic _ (TransGen.head' hrefers hreach)
  · exact h above hmem (ReflTransGen.head hrefers hreach)

/-! ## One tag -/

theorem adds_gatherValue {gatherTag : String → List String → List String} {value : String}
    (h : Naming.isTagName value = true →
      Adds (gatherTag (Naming.tagName value)) (flatten tags (Naming.tagName value))) :
    Adds (gatherValue gatherTag · value) (itemsOf tags value) := by
  intro found
  dsimp only
  rw [gatherValue, itemsOf]
  split
  · next htag => exact h htag found
  · rw [firstSeenAfter, firstSeenAfter, id]
    split
    · exact (List.append_nil found).symm
    · rfl

/-- Values that add each their items add the items of all. -/
theorem adds_foldl {step : List String → String → List String} {items : String → List String}
    {values : List String} (h : ∀ value ∈ values, Adds (step · value) (items value)) :
    Adds (values.foldl step) (values.flatMap items) := by
  intro found
  induction values generalizing found with
  | nil => exact (List.append_nil found).symm
  | cons value values ih =>
    obtain ⟨hvalue, hvalues⟩ := List.forall_mem_cons.1 h
    -- Behind the first value, its items are found, be it by this value or before.
    have hfound : ∀ b, b ∈ found ++ firstSeenAfter id found (items value) ↔
        b ∈ (items value).map id ++ found := by
      intro b
      rw [List.mem_append, List.mem_append, List.map_id, mem_firstSeenAfter_id]
      grind
    dsimp only [Adds] at hvalue ih ⊢
    rw [List.foldl_cons, hvalue, ih hvalues, List.flatMap_cons, firstSeenAfter_append,
      List.append_assoc, firstSeenAfter_congr id hfound]

theorem adds_gather_of_not_mem (h : tag ∉ tags.map (·.1)) (levels : Nat) (lineage : List String) :
    Adds (gather (tags.lookup ·) levels lineage tag) (flatten tags tag) := by
  intro found
  rw [gather_of_not_mem h, flatten, gather_of_not_mem h]
  exact (List.append_nil found).symm

section Nested

variable (hacyclic : Acyclic tags) (hnested : ∀ other, Refers tags tag other → Spreads tags other)

include hacyclic hnested

/-- If all tags that it names add their items, the tag adds those of its values. -/
theorem adds_gather_of_nested (hentered : tag ∈ tags.map (·.1)) {levels : Nat}
    {lineage : List String} (hroom : Room tags levels lineage) (hapart : Apart tags lineage tag) :
    Adds (gather (tags.lookup ·) levels lineage tag) ((valuesOf tags tag).flatMap (itemsOf tags)) := by
  obtain ⟨n, rfl, hroom'⟩ := hroom.exists_room_cons hentered hapart.not_mem
  intro found
  rw [gather_succ hentered hapart.not_mem]
  refine adds_foldl (fun value hvalue => adds_gatherValue fun htag => ?_) found
  by_cases hother : Naming.tagName value ∈ tags.map (·.1)
  · have hrefers : Refers tags tag (Naming.tagName value) := ⟨hother, value, hvalue, htag, rfl⟩
    exact hnested _ hrefers n _ hroom' (hapart.cons hacyclic hrefers)
  · exact adds_gather_of_not_mem hother n _

theorem flatten_eq_of_nested (hentered : tag ∈ tags.map (·.1)) :
    flatten tags tag = firstSeen id ((valuesOf tags tag).flatMap (itemsOf tags)) :=
  adds_gather_of_nested hacyclic hnested hentered (room_nil tags) (apart_nil tags tag) []

theorem spreads_of_nested (hentered : tag ∈ tags.map (·.1)) : Spreads tags tag := by
  intro levels lineage hroom hapart found
  rw [adds_gather_of_nested hacyclic hnested hentered hroom hapart found,
    flatten_eq_of_nested hacyclic hnested hentered, firstSeenAfter_firstSeen]

end Nested

/-! ## All tags -/

/-- Tags that lead to each other are ordered if none leads back to itself. -/
theorem isStrictOrder_of_acyclic (h : Acyclic tags) :
    IsStrictOrder String fun other tag => TransGen (Refers tags) tag other where
  irrefl := h
  trans := fun _ _ _ h h' => h'.trans h

/-- Without a way back every tag adds its items that were not found before. -/
theorem spreads_of_acyclic (h : Acyclic tags) (tag : String) : Spreads tags tag := by
  by_cases hentered : tag ∈ tags.map (·.1)
  · have horder := isStrictOrder_of_acyclic h
    -- There are finitely many tags, so the tags that one leads to come before it.
    have hfounded := (List.finite_toSet (tags.map (·.1))).wellFoundedOn
      (r := fun other tag => TransGen (Refers tags) tag other)
    refine hfounded.induction (P := Spreads tags) hentered fun tag hentered ih => ?_
    apply spreads_of_nested h ?_ hentered
    intro other hrefers
    exact ih other hrefers.1 (.single hrefers)
  · exact fun levels lineage _ _ => adds_gather_of_not_mem hentered levels lineage

/-- Without a way back the items of a tag are those of its values, each once. -/
theorem flatten_eq_firstSeen (h : Acyclic tags) (tag : String) :
    flatten tags tag = firstSeen id ((valuesOf tags tag).flatMap (itemsOf tags)) := by
  by_cases hentered : tag ∈ tags.map (·.1)
  · exact flatten_eq_of_nested h (fun other _ => spreads_of_acyclic h other) hentered
  · rw [flatten, gather_of_not_mem hentered, valuesOf_eq_nil hentered]
    rfl

end Draft

theorem acyclic_ofEntries {es : List Entry} (h : ∀ tag, ¬ TransGen (Nests es) tag tag) :
    Draft.Acyclic (Draft.ofEntries es).tags := by
  rwa [Draft.Acyclic, refers_ofEntries]

/-- Tags of which each has a higher rank than those it names do not lead back. -/
theorem not_transGen_of_rank {es : List Entry} (rank : String → Nat)
    (h : ∀ e ∈ es, ∀ tag ∈ e.tag?, ∀ value ∈ es.flatMap (Entry.valuesFor tag),
      Naming.isTagName value = true → rank (Naming.tagName value) < rank tag) (tag : String) :
    ¬ TransGen (Nests es) tag tag := by
  have hstep : ∀ tag other, Nests es tag other → rank other < rank tag := by
    rintro tag _ ⟨-, value, hvalue, htag, rfl⟩
    obtain ⟨e, he, hmem⟩ := List.mem_flatMap.1 hvalue
    exact h e he tag (Entry.tag?_of_mem_valuesFor hmem) value hvalue htag
  intro hback
  have hrank : TransGen (fun n m : Nat => m < n) (rank tag) (rank tag) := hback.lift rank hstep
  rw [transGen_eq_self] at hrank
  exact lt_irrefl _ hrank

/-- If no tag leads back to itself, a tag stands for what its values stand for, one value after the
other and each item once: an item for itself, a tag for its items, a tag that was never entered for
none. -/
theorem members_eq_composed {es : List Entry} {c : Catalogue}
    (h : (Draft.ofEntries es).build = .ok c) (hacyclic : ∀ tag, ¬ TransGen (Nests es) tag tag)
    (tag : String) :
    (c.members tag).map (·.id) =
        firstSeen id ((es.flatMap (Entry.valuesFor (Naming.tagName tag))).flatMap fun value =>
          if Naming.isTagName value then (c.members value).map (·.id) else [value]) ∧
      ∀ other, c.hasTag other = false → c.members other = [] := by
  have hitems : Draft.itemsOf (Draft.ofEntries es).tags = fun value =>
      if Naming.isTagName value then (c.members value).map (·.id) else [value] := by
    funext value
    rw [Draft.itemsOf, Draft.map_id_members h]
  constructor
  · rw [Draft.map_id_members h, Draft.flatten_eq_firstSeen (acyclic_ofEntries hacyclic),
      Draft.valuesOf_ofEntries, hitems]
  · intro other hother
    rw [hasTag, Option.isSome_eq_false_iff, Option.isNone_iff_eq_none] at hother
    rw [members, hother]
    rfl

/-- Two kinds of logs that share a third one: what is stripped is named by both tags, and comes where
it is met first. -/
theorem members_eq_composed_logs :
    let es := [Entry.tag "logs" ["#oak_logs", "birch_log", "#stripped", "#missing"],
      Entry.tag "#oak_logs" ["oak_log", "#minecraft:stripped"],
      Entry.tag "stripped" ["stripped_log", "birch_log"]]
    let logs := ["oak_log", "stripped_log", "birch_log"]
    let c : Catalogue := ⟨[], [("#minecraft:logs", logs),
      ("#minecraft:oak_logs", ["oak_log", "stripped_log", "birch_log"]),
      ("#minecraft:stripped", ["stripped_log", "birch_log"])]⟩
    (Draft.ofEntries es).build = .ok c ∧ (∀ tag, ¬ TransGen (Nests es) tag tag) ∧
      (c.members "logs").map (·.id) = logs ∧
      (c.members "logs").map (·.id) =
        firstSeen id ((es.flatMap (Entry.valuesFor "#minecraft:logs")).flatMap fun value =>
          if Naming.isTagName value then (c.members value).map (·.id) else [value]) := by
  intro es logs c
  have hbuild : (Draft.ofEntries es).build = .ok c := Draft.build_eq_ok (by decide +kernel)
  have hacyclic : ∀ tag, ¬ TransGen (Nests es) tag tag := by
    apply not_transGen_of_rank
      fun tag => if tag = "#minecraft:logs" then 2 else if tag = "#minecraft:oak_logs" then 1 else 0
    decide +kernel
  have hname : Naming.tagName "logs" = "#minecraft:logs" := by decide +kernel
  have hids : (c.members "logs").map (·.id) = logs := by decide +kernel
  refine ⟨hbuild, hacyclic, hids, ?_⟩
  rw [← hname]
  exact (members_eq_composed hbuild hacyclic "logs").1

end RecipePlanner.Catalogue

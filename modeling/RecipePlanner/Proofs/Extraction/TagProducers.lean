import RecipePlanner.Proofs.Catalogue.Members
import RecipePlanner.Proofs.Extraction.Kinds
import RecipePlanner.Proofs.Producers.Positions

/-!
# Producers of a tag

In a batch in which nothing is yielded under the name of a tag, a tag that a recipe needs is made by
what makes one of its members, and the members are those of the catalogue
(`positions_tag_eq_members`).

A name is spelled in the same way all along: it is read without blanks at the ends, its kind goes by
its first character (`isTag_lookup_eq`), and the catalogue alone decides what else belongs to it
(`resolve_of_mem_mentions`). So the form found for the tag is the one that the recipe needs, and the
form found for a member is an item.
-/

namespace RecipePlanner.Extraction

open Catalogue (Entry Draft)

variable {c : Catalogue} {documents : List RecipeText} {r : Recipe} {s : Stack} {t : Tag}

/-! ## Forms of a material -/

/-- Two materials in the form that a catalogue gives them are the same if they have the same
identifier and are of the same kind. -/
theorem eq_of_resolve {m n : Material} (hm : c.resolve m = m) (hn : c.resolve n = n)
    (hid : m.id = n.id) (hkind : m.isTag = n.isTag) : m = n := by
  cases m with
  | item i =>
    cases n with
    | item j =>
      have hij : i.id = j.id := hid
      rw [← hm, ← hn, Catalogue.resolve, Catalogue.resolve, hij]
    | tag u => cases hkind
  | tag t =>
    cases n with
    | item j => cases hkind
    | tag u =>
      have htu : t.id = u.id := hid
      rw [← hm, ← hn, Catalogue.resolve, Catalogue.resolve, htu]

theorem members_of_resolve_eq (h : c.resolve (.tag t) = .tag t) : t.members = c.members t.id :=
  (congrArg Tag.members (Material.tag.inj h)).symm

theorem resolve_of_mem_mentions {m : Material}
    (hm : m ∈ Producers.mentions (extract c documents)) : c.resolve m = m := by
  obtain ⟨r, hr, -, s, hs, rfl⟩ := Producers.mem_mentions_iff.1 hm
  exact resolve_of_mem_extract hr hs

theorem mem_mentions_of_mem_needs (hr : r ∈ extract c documents) (hmarker : r.isMarker = false)
    (hs : s ∈ r.needs) : s.material ∈ Producers.mentions (extract c documents) :=
  Producers.mem_mentions_iff.2
    ⟨r, hr, isProductive_of_mem_extract hr hmarker, s, List.mem_append_left _ hs, rfl⟩

section NoTagYielded

variable (hyields : ∀ r ∈ extract c documents, ∀ s ∈ r.yields, Naming.isTagName s.id = false)

include hyields

/-- What is looked up is a tag exactly if the name that was asked for is marked as one. -/
theorem isTag_lookup_eq (raw : String) :
    ((Producers.ofList (extract c documents)).lookup raw).isTag =
      Naming.isTagName (Text.trim raw) := by
  apply isTag_lookup
  intro htag r hr s hs hid
  have hitem := hyields r hr s hs
  rw [hid] at hitem
  exact nomatch hitem.symm.trans htag

/-- Looking up the identifier of a tag that is needed finds this tag. -/
theorem lookup_tag_of_mem_needs (hr : r ∈ extract c documents) (hmarker : r.isMarker = false)
    (hs : s ∈ r.needs) (ht : s.material = .tag t) :
    (Producers.ofList (extract c documents)).lookup t.id = .tag t := by
  have hmention := mem_mentions_of_mem_needs hr hmarker hs
  have htag := isTag_of_mem_needs hr hs
  have htrim : Text.trim (Material.tag t).id = (Material.tag t).id := by
    rw [← ht]
    exact trim_id_of_mem_needs hr hs
  rw [Stack.id, ht] at htag
  rw [ht] at hmention
  rcases Producers.lookup_ofList_cases (extract c documents) t.id with ⟨hmem, hid⟩ | ⟨-, hnone⟩
  · -- Both the form that is found and the tag go by the mark in front of the same identifier.
    have hkind := calc
      ((Producers.ofList (extract c documents)).lookup t.id).isTag
        = Naming.isTagName (Text.trim t.id) := isTag_lookup_eq hyields t.id
      _ = Naming.isTagName (Material.tag t).id := congrArg Naming.isTagName htrim
      _ = (Material.tag t).isTag := htag.symm
    exact eq_of_resolve (resolve_of_mem_mentions hmem) (resolve_of_mem_mentions hmention)
      (hid.trans htrim) hkind
  · exact absurd htrim.symm (hnone _ hmention)

/-- A name that is not marked as that of a tag stands for one item. -/
theorem members_lookup_item {raw : String} (hraw : Naming.isTagName (Text.trim raw) = false) :
    let p := Producers.ofList (extract c documents)
    p.members (p.lookup raw) = [Text.trim raw] := by
  intro p
  have hkind := (isTag_lookup_eq hyields raw).trans hraw
  rw [Producers.members_of_not_isTag hkind, Producers.id_lookup_ofList]

end NoTagYielded

/-! ## Positions -/

/-- The recipes for a tag that a recipe needs are those for the members that the catalogue has for
it, each once. There are none exactly if all these members are base materials. -/
theorem positions_tag_eq_members {es : List Entry} (hbuild : (Draft.ofEntries es).build = .ok c)
    (hyields : ∀ r ∈ extract c documents, ∀ s ∈ r.yields, Naming.isTagName s.id = false)
    (hr : r ∈ extract c documents) (hmarker : r.isMarker = false) (hs : s ∈ r.needs)
    (ht : s.material = .tag t) :
    let p := Producers.ofList (extract c documents)
    (∀ m, (p.producing m).map some = (p.positions m).map fun i => p.recipes[i]?) ∧
    (p.positions (p.lookup t.id)).Nodup ∧
    (∀ i, i ∈ p.positions (p.lookup t.id) ↔
      ∃ m ∈ c.members t.id, i ∈ p.positions (p.lookup m.id)) ∧
    (p.producing (p.lookup t.id) = [] ↔ ∀ m ∈ c.members t.id, p.isBase (.item m) = true) := by
  intro p
  have hrange : p.InRange := Producers.inRange_ofList _
  have hlookup : p.lookup t.id = .tag t := lookup_tag_of_mem_needs hyields hr hmarker hs ht
  have hresolved : c.resolve (.tag t) = .tag t := by
    rw [← ht]
    exact resolve_of_mem_extract hr (List.mem_append_left _ hs)
  have htag : p.members (p.lookup t.id) = (c.members t.id).map (·.id) := by
    rw [hlookup, Producers.members_of_lookup_eq hlookup, members_of_resolve_eq hresolved]
  have hmember : ∀ m ∈ c.members t.id, p.members (p.lookup m.id) = [m.id] := by
    intro m hm
    obtain ⟨hitem, htrim⟩ := Catalogue.name_of_mem_members hbuild hm
    have hname : Naming.isTagName (Text.trim m.id) = false := by rwa [htrim]
    rw [members_lookup_item hyields hname, htrim]
  have hnodup : (p.positions (p.lookup t.id)).Nodup := by
    rw [hlookup]
    exact p.nodup_positions_tag t
  refine ⟨Producers.map_some_producing hrange, hnodup, fun i => ?_, ?_⟩
  · have hposition : ∀ m ∈ c.members t.id,
        (i ∈ p.positions (p.lookup m.id) ↔ i ∈ p.positionsOf m.id) := by
      intro m hm
      rw [Producers.mem_positions_iff, hmember m hm]
      simp only [List.mem_singleton, exists_eq_left]
    rw [Producers.mem_positions_iff, htag]
    simp only [List.mem_map, exists_exists_and_eq_and]
    exact exists_congr fun m => and_congr_right fun hm => (hposition m hm).symm
  · have hbase : ∀ m : Item, p.isBase (.item m) = true ↔ p.positionsOf m.id = [] := by
      intro m
      rw [Producers.isBase, List.isEmpty_iff, Producers.positions_eq_nil_iff]
      exact List.forall_mem_singleton
    rw [Producers.producing_eq_nil_iff hrange, Producers.positions_eq_nil_iff, htag,
      List.forall_mem_map]
    exact forall₂_congr fun m _ => (hbase m).symm

/-- Charcoal from any planks: birch planks are listed by a tag within that of the planks, and their
recipe is one for the tag. -/
theorem positions_tag_eq_members_planks :
    let es := [Entry.tag "planks" ["oak_planks", "#light"],
      Entry.tag "#light" ["minecraft:birch_planks"]]
    let c : Catalogue := ⟨[], [("#minecraft:planks", ["oak_planks", "minecraft:birch_planks"]),
      ("#minecraft:light", ["minecraft:birch_planks"])]⟩
    let t : Tag := ⟨"#minecraft:planks", "Planks",
      [⟨"oak_planks", "Oak Planks"⟩, ⟨"minecraft:birch_planks", "Birch Planks"⟩]⟩
    let rs := extract c [
      ⟨"charcoal.json",
        "\x7b\"type\":\"smelting\",\"ingredient\":\"#planks\",\"result\":\"charcoal\"\x7d"⟩,
      ⟨"planks.json",
        "\x7b\"type\":\"smelting\",\"ingredient\":\"birch\",\"result\":\"birch_planks\"\x7d"⟩]
    let p := Producers.ofList rs
    (Draft.ofEntries es).build = .ok c ∧
      (∀ r ∈ rs, ∀ s ∈ r.yields, Naming.isTagName s.id = false) ∧
      (∃ r ∈ rs, r.isMarker = false ∧ ∃ s ∈ r.needs, s.material = .tag t) ∧
      p.positions (p.lookup t.id) = [1] ∧
      ∀ i, i ∈ p.positions (p.lookup t.id) ↔
        ∃ m ∈ c.members t.id, i ∈ p.positions (p.lookup m.id) := by
  intro es c t rs p
  have htags : c.tags = (Draft.ofEntries es).tags.map fun entry =>
      (entry.1, Draft.flatten (Draft.ofEntries es).tags entry.1) := by decide +kernel
  have hbuild : (Draft.ofEntries es).build = .ok c :=
    Draft.build_eq_ok_iff.2 ⟨by decide +kernel, by decide +kernel, congrArg (Catalogue.mk []) htags⟩
  have hrun : (∀ r ∈ rs, ∀ s ∈ r.yields, Naming.isTagName s.id = false) ∧
      (∃ r ∈ rs, r.isMarker = false ∧ ∃ s ∈ r.needs, s.material = .tag t) ∧
      p.positions (p.lookup t.id) = [1] := by decide +kernel
  obtain ⟨hyields, ⟨r, hr, hmarker, s, hs, ht⟩, hone⟩ := hrun
  exact ⟨hbuild, hyields, ⟨r, hr, hmarker, s, hs, ht⟩, hone,
    (positions_tag_eq_members hbuild hyields hr hmarker hs ht).2.2.1⟩

end RecipePlanner.Extraction

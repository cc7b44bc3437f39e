import RecipePlanner.Proofs.Extraction.Emitted
import RecipePlanner.Proofs.Producers.Known

/-!
# Items and tags in an extraction

An identifier that starts with `#` names a tag. A material that a recipe needs is a tag exactly if
it has such an identifier, but what a recipe yields is always taken for an item. So a document that
names a tag as its product puts an item with the identifier of a tag among the producers
(`yielded_tag_name`). As long as no document does, the producers keep to the same rule: looking up a
name gives a tag exactly if it starts with `#` (`kinds_of_extract`).
-/

namespace RecipePlanner.Extraction

variable {c : Catalogue} {documents : List RecipeText}

/-- What is looked up is a tag exactly if the name that was asked for is marked as one, unless
something is yielded under the name of a tag. -/
theorem isTag_lookup {raw : String}
    (hyields : Naming.isTagName (Text.trim raw) = true →
      ∀ r ∈ extract c documents, ∀ s ∈ r.yields, s.id ≠ Text.trim raw) :
    ((Producers.ofList (extract c documents)).lookup raw).isTag =
      Naming.isTagName (Text.trim raw) := by
  rcases Producers.lookup_ofList_cases (extract c documents) raw with ⟨hmem, hid⟩ | ⟨hparse, -⟩
  · obtain ⟨r, hr, -, s, hs, hmaterial⟩ := Producers.mem_mentions_iff.1 hmem
    have hsid : s.id = Text.trim raw := (congrArg Material.id hmaterial).trans hid
    rcases List.mem_append.1 hs with hs | hs
    · rw [← hmaterial, isTag_of_mem_needs hr hs, hsid]
    · have hitem : Naming.isTagName (Text.trim raw) = false :=
        Bool.eq_false_iff.2 fun htag => hyields htag r hr s hs hsid
      rw [← hmaterial, isTag_of_mem_yields hr hs, hitem]
  · rw [hparse, Material.isTag_parse, Material.id_parse, Text.trim_trim]

/-- The producers have entries for what the recipes of a batch yield, and for nothing else. -/
theorem mem_byItem_extract_iff {id : String} :
    id ∈ (Producers.ofList (extract c documents)).byItem.map (·.1) ↔
      ∃ r ∈ extract c documents, ∃ s ∈ r.yields, s.id = id := by
  rw [Producers.mem_byItem_ofList_iff]
  constructor
  · rintro ⟨m, hm, -, rfl⟩
    obtain ⟨r, hr, -, s, hs, rfl⟩ := Producers.mem_yielded_iff.1 hm
    exact ⟨r, hr, s, hs, rfl⟩
  · rintro ⟨r, hr, s, hs, rfl⟩
    have hm : s.material ∈ Producers.yielded (extract c documents) :=
      Producers.mem_yielded_iff.2 ⟨r, hr, isProductive_of_mem_yields hr hs, s, hs, rfl⟩
    exact ⟨s.material, hm, isTag_of_mem_yields hr hs, rfl⟩

/-- What is needed is a tag exactly if its identifier starts with `#`. What is yielded is an item
whatever its identifier, and the producers have an entry for it. A name is looked up as a tag exactly
if it starts with `#`, unless something is yielded under such a name. -/
theorem kinds_of_extract (c : Catalogue) (documents : List RecipeText) :
    let rs := extract c documents
    let p := Producers.ofList rs
    (∀ r ∈ rs, (∀ s ∈ r.needs, s.material.isTag = Naming.isTagName s.id) ∧
      ∀ s ∈ r.yields, s.material.isTag = false) ∧
    (∀ id, id ∈ p.byItem.map (·.1) ↔ ∃ r ∈ rs, ∃ s ∈ r.yields, s.id = id) ∧
    ∀ raw, (Naming.isTagName (Text.trim raw) = true →
        ∀ r ∈ rs, ∀ s ∈ r.yields, s.id ≠ Text.trim raw) →
      (p.lookup raw).isTag = Naming.isTagName (Text.trim raw) := by
  intro rs p
  refine ⟨fun r hr => ⟨fun s hs => ?_, fun s hs => ?_⟩, fun id => ?_, fun raw hyields => ?_⟩
  · exact isTag_of_mem_needs hr hs
  · exact isTag_of_mem_yields hr hs
  · exact mem_byItem_extract_iff
  · exact isTag_lookup hyields

/-- A document whose product is named like a tag: it yields an item under that name, the producers
have an entry for it, and the name is looked up as an item. -/
theorem yielded_tag_name :
    let rs := extract ⟨[], []⟩ [⟨"planks.json",
      "\x7b\"type\":\"smelting\",\"ingredient\":\"oak_log\",\"result\":\"#planks\"\x7d"⟩]
    let p := Producers.ofList rs
    (∃ r ∈ rs, ∃ s ∈ r.yields, s.material.isTag ≠ Naming.isTagName s.id) ∧
      "#minecraft:planks" ∈ p.byItem.map (·.1) ∧
      (p.lookup "#minecraft:planks").isTag = false := by
  decide +kernel

end RecipePlanner.Extraction

import Mathlib.Data.List.Find
import RecipePlanner.Proofs.Producers.Known
import RecipePlanner.Samples

/-!
# Forms of a material

Of a material only its form matters to the producers: the identifier, whether it is a tag, and the
items it stands for (`members_congr`). Recipes are `Uniform` if they mention each identifier in one
form, as a catalogue leaves them. Then a look-up gives that form whichever mention it goes back to
(`sameForm_of_known`), and so it does after the recipes come in another order
(`sameForm_lookup_of_mem_iff`).

Names and members may differ between mentions of one tag. As long as they are all mentions of a tag,
a look-up gives the first of them that has members (`lookup_eq_of_oneKind`).
-/

namespace RecipePlanner

/-- Two materials that differ at most in names: they have the same identifier, both are tags or
neither is, and they stand for the same items. -/
structure Material.SameForm (m n : Material) : Prop where
  id : m.id = n.id
  isTag : m.isTag = n.isTag
  itemIds : m.itemIds = n.itemIds

instance (m n : Material) : Decidable (m.SameForm n) :=
  decidable_of_iff (m.id = n.id ∧ m.isTag = n.isTag ∧ m.itemIds = n.itemIds)
    ⟨fun ⟨hid, htag, hitems⟩ => ⟨hid, htag, hitems⟩, fun h => ⟨h.id, h.isTag, h.itemIds⟩⟩

theorem Material.SameForm.refl (m : Material) : m.SameForm m := ⟨rfl, rfl, rfl⟩

theorem Material.SameForm.symm {m n : Material} (h : m.SameForm n) : n.SameForm m :=
  ⟨h.id.symm, h.isTag.symm, h.itemIds.symm⟩

/-- Whether the material is a tag with members. -/
def Material.isFilledTag (m : Material) : Bool := m.isTag && !m.itemIds.isEmpty

namespace Producers

/-- Productive recipes mention every identifier in one form. Recipes that make nothing do not
matter. -/
def Uniform (rs : List Recipe) : Prop :=
  ∀ m ∈ mentions rs, ∀ n ∈ mentions rs, m.id = n.id → m.SameForm n

instance (rs : List Recipe) : Decidable (Uniform rs) :=
  inferInstanceAs (Decidable (∀ m ∈ mentions rs, ∀ n ∈ mentions rs, m.id = n.id → m.SameForm n))

/-- Producers that look up the same forms take materials of one form for the same items. -/
theorem members_congr {p q : Producers} (hlookup : ∀ raw, (p.lookup raw).SameForm (q.lookup raw))
    {m n : Material} (h : m.SameForm n) : p.members m = q.members n := by
  obtain ⟨hid, htag, hitems⟩ := h
  cases m with
  | item i =>
    cases n with
    | item j => exact hitems
    | tag u => cases htag
  | tag t =>
    cases n with
    | item j => cases htag
    | tag u =>
      have hempty : t.members.isEmpty = u.members.isEmpty := by
        rw [← isEmpty_itemIds_tag, ← isEmpty_itemIds_tag, hitems]
      have htid : t.id = u.id := hid
      rw [members, members, hempty, htid, (hlookup u.id).itemIds]
      split
      · rfl
      · exact hitems

/-- If they have the same positions for each item, they have the same positions for both. -/
theorem positions_congr {p q : Producers} (hlookup : ∀ raw, (p.lookup raw).SameForm (q.lookup raw))
    (hitems : p.positionsOf = q.positionsOf) {m n : Material} (h : m.SameForm n) :
    p.positions m = q.positions n := by
  have hmembers := members_congr hlookup h
  cases m with
  | item i =>
    cases n with
    | item j => rw [positions, positions, hitems, List.singleton_inj.1 hmembers]
    | tag u => cases h.isTag
  | tag t =>
    cases n with
    | item j => cases h.isTag
    | tag u => rw [positions, positions, hmembers, hitems]

/-- Materials of one form are base materials together. -/
theorem isBase_congr (p : Producers) {m n : Material} (h : m.SameForm n) :
    p.isBase m = p.isBase n := by
  rw [isBase, isBase, positions_congr (fun _ => .refl _) rfl h]

/-- The material is the one that is looked up for `raw`, or a recipe mentions it. -/
def Known (rs : List Recipe) (raw : String) (m : Material) : Prop :=
  m = (ofList rs).lookup raw ∨ m ∈ mentions rs

/-- Where recipes are uniform, what is looked up has the form in which they mention it. -/
theorem sameForm_lookup {rs : List Recipe} (hu : Uniform rs) {raw : String} {m : Material}
    (hm : m ∈ mentions rs) (hid : m.id = ((ofList rs).lookup raw).id) :
    m.SameForm ((ofList rs).lookup raw) := by
  rw [id_lookup_ofList] at hid
  rcases lookup_ofList_cases rs raw with ⟨hmem, hlookup⟩ | ⟨-, hnone⟩
  · exact hu m hm _ hmem (hid.trans hlookup.symm)
  · exact absurd hid (hnone m hm)

/-- Where recipes are uniform, known materials with one identifier have one form. -/
theorem sameForm_of_known {rs : List Recipe} (hu : Uniform rs) {raw : String} {m n : Material}
    (hm : Known rs raw m) (hn : Known rs raw n) (hid : m.id = n.id) : m.SameForm n := by
  rcases hm with rfl | hm
  · rcases hn with rfl | hn
    · exact .refl _
    · exact (sameForm_lookup hu hn hid.symm).symm
  · rcases hn with rfl | hn
    · exact sameForm_lookup hu hm hid
    · exact hu m hm n hn hid

/-- Uniform recipes that mention the same materials look up the same forms. -/
theorem sameForm_lookup_of_mem_iff {rs rs' : List Recipe} (hu : Uniform rs)
    (h : ∀ m, m ∈ mentions rs ↔ m ∈ mentions rs') (raw : String) :
    ((ofList rs).lookup raw).SameForm ((ofList rs').lookup raw) := by
  rcases lookup_ofList_cases rs raw with ⟨hmem, hid⟩ | ⟨hparse, hnone⟩
  · rcases lookup_ofList_cases rs' raw with ⟨hmem', hid'⟩ | ⟨-, hnone'⟩
    · exact hu _ hmem _ ((h _).2 hmem') (hid.trans hid'.symm)
    · exact absurd hid (hnone' _ ((h _).1 hmem))
  · rcases lookup_ofList_cases rs' raw with ⟨hmem', hid'⟩ | ⟨hparse', -⟩
    · exact absurd hid' (hnone _ ((h _).2 hmem'))
    · rw [hparse, hparse']
      exact .refl _

/-! ## The best form -/

/-- Productive recipes mention an identifier as a tag throughout or not at all. -/
def OneKind (rs : List Recipe) : Prop :=
  ∀ m ∈ mentions rs, ∀ n ∈ mentions rs, m.id = n.id → m.isTag = n.isTag

instance (rs : List Recipe) : Decidable (OneKind rs) :=
  inferInstanceAs (Decidable (∀ m ∈ mentions rs, ∀ n ∈ mentions rs, m.id = n.id → m.isTag = n.isTag))

/-- What is no tag always stands for an item. -/
theorem isEmpty_itemIds_of_not_isTag {m : Material} (h : m.isTag = false) :
    m.itemIds.isEmpty = false := by
  cases m with
  | item i => rfl
  | tag t => cases h

/-- Of forms that are all tags or all items the best is the first tag with members, else the
first. -/
theorem bestForm?_eq_of_isTag_eq {forms : List Material}
    (h : ∀ m ∈ forms, ∀ n ∈ forms, m.isTag = n.isTag) :
    bestForm? forms = (forms.find? Material.isFilledTag).or forms.head? := by
  cases forms with
  | nil => rfl
  | cons first rest =>
    cases hfirst : first.isTag with
    | true =>
      -- All are tags, so those that stand for items are those with members.
      have hsame : ∀ m ∈ first :: rest, (!m.itemIds.isEmpty) = m.isFilledTag := by
        intro m hm
        rw [Material.isFilledTag, h m hm first List.mem_cons_self, hfirst, Bool.true_and]
      rw [bestForm?, List.find?_congr hsame]
    | false =>
      -- None is a tag, and the first stands for an item already.
      have hnone : (first :: rest).find? Material.isFilledTag = none := by
        rw [List.find?_eq_none]
        intro m hm
        rw [Material.isFilledTag, h m hm first List.mem_cons_self, hfirst]
        exact Bool.false_ne_true
      rw [hnone, Option.none_or, bestForm?, List.find?_cons_of_pos]
      · rfl
      · rw [isEmpty_itemIds_of_not_isTag hfirst]
        rfl

/-- Where recipes mention an identifier as a tag throughout or not at all, looking up a name gives
the first mention of it as a tag with members, else its first mention, else what the name says by
itself. Mentions are those of productive recipes, needs before yields in each. -/
theorem lookup_eq_of_oneKind {rs : List Recipe} (hkind : OneKind rs) (raw : String) :
    let found := (mentions rs).filter (·.id = Text.trim raw)
    (ofList rs).lookup raw =
      ((found.find? Material.isFilledTag).or found.head?).getD (Material.parse raw) := by
  intro found
  have hfound : ∀ m ∈ found, ∀ n ∈ found, m.isTag = n.isTag := by
    intro m hm n hn
    obtain ⟨hm, hmid⟩ := List.mem_filter.1 hm
    obtain ⟨hn, hnid⟩ := List.mem_filter.1 hn
    exact hkind m hm n hn ((of_decide_eq_true hmid).trans (of_decide_eq_true hnid).symm)
  have hparse : Material.parse (Text.trim raw) = Material.parse raw := by
    rw [Material.parse, Text.trim_trim, Material.parse]
  rw [lookup, lookup_known_ofList, bestForm?_eq_of_isTag_eq hfound, hparse]

/-- Planks are mentioned by a mark, which does not count, then bare, then with members under two
names. -/
theorem lookup_eq_of_oneKind_planks :
    let filled := fun name => Material.tag ⟨"#planks", name, [Item.ofId "oak"]⟩
    let stick := fun planks => Recipe.mk .shaped "stick.json" [⟨planks, .one⟩] [Samples.stack "stick" 4]
    let rs := [⟨.ignored, "trim.json", [⟨filled "Trim", .one⟩], []⟩, stick (.parse "#planks"),
      stick (filled "All Planks"), stick (filled "Any Planks")]
    OneKind rs ∧ (ofList rs).lookup " #planks " = filled "All Planks" := by
  intro filled stick rs
  have hkind : OneKind rs := by decide +kernel
  refine ⟨hkind, (lookup_eq_of_oneKind hkind " #planks ").trans ?_⟩
  decide +kernel

end Producers

end RecipePlanner

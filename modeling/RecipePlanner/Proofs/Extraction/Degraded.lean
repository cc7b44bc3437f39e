import RecipePlanner.Expansion
import RecipePlanner.Extraction
import RecipePlanner.Proofs.Producers.Known

/-!
# What makes nothing does not matter

Three places tell recipes that make something from the others: the tally counts them, `productive`
keeps them, and `Producers.insert` adds no others. They agree (`tally_eq`, `Producers.size_ofList`),
and what is left out leaves no trace: the producers among some recipes are those among the productive
ones (`ofList_productive`).

Documents that are degraded, because they have a fault, declare no type that means anything here or
describe nothing but looks, leave marks only (`readOrMark_of_degraded`). So they may stand anywhere in a
batch, and as many as there are, without a change in what is found and expanded
(`productive_suffice`).
-/

namespace RecipePlanner

/-- Producers that answer alike whatever is asked of them. -/
structure Producers.SameAnswers (p q : Producers) : Prop where
  lookup (raw : String) : p.lookup raw = q.lookup raw
  keyed (m : Material) : p.keyed m = q.keyed m
  isBase (m : Material) : p.isBase m = q.isBase m
  expansion (m : Material) (limits : Limits) :
    Expansion.ofMaterial p m limits = Expansion.ofMaterial q m limits

theorem Producers.SameAnswers.refl (p : Producers) : p.SameAnswers p :=
  ⟨fun _ => rfl, fun _ => rfl, fun _ => rfl, fun _ _ => rfl⟩

namespace Extraction

/-! ## The tally -/

/-- Whether a recipe could make something but yields nothing. -/
def isBarren (r : Recipe) : Bool := !r.isMarker && r.yields.isEmpty

/-- A recipe is counted in one place, which depends on what it is. -/
theorem count_eq (t : Tally) (r : Recipe) :
    t.count r =
      { t with
        kept := t.kept + [r].countP (·.isProductive)
        unknown := t.unknown + [r].countP (·.method = .unknown)
        ignored := t.ignored + [r].countP (·.method = .ignored)
        emptyOutput := t.emptyOutput + [r].countP isBarren } := by
  obtain ⟨method, filename, needs, yields⟩ := r
  cases method <;> cases yields <;> rfl

/-- The tally of a run of recipes says of each kind how many there are. -/
theorem foldl_count_eq (rs : List Recipe) (t : Tally) :
    rs.foldl Tally.count t =
      { t with
        kept := t.kept + rs.countP (·.isProductive)
        unknown := t.unknown + rs.countP (·.method = .unknown)
        ignored := t.ignored + rs.countP (·.method = .ignored)
        emptyOutput := t.emptyOutput + rs.countP isBarren } := by
  induction rs generalizing t with
  | nil => rfl
  | cons r rs ih =>
    rw [List.foldl_cons, ih, count_eq]
    simp only [Nat.add_assoc, ← List.countP_append, List.singleton_append]

theorem tally_eq (documents : Nat) (rs : List Recipe) :
    tally documents rs =
      ⟨documents, rs.length, (productive rs).length, rs.countP (·.method = .unknown),
        rs.countP (·.method = .ignored), rs.countP isBarren⟩ := by
  rw [tally, foldl_count_eq, productive, ← List.countP_eq_length_filter]
  simp only [Nat.zero_add]

/-- Every recipe is of one of the four kinds, and of one only. -/
theorem countP_add_eq_length (rs : List Recipe) :
    rs.countP (·.isProductive) + rs.countP (·.method = .unknown) +
      rs.countP (·.method = .ignored) + rs.countP isBarren = rs.length := by
  have hone : ∀ r : Recipe, [r].countP (·.isProductive) + [r].countP (·.method = .unknown) +
      [r].countP (·.method = .ignored) + [r].countP isBarren = 1 := by
    rintro ⟨method, filename, needs, yields⟩
    cases method <;> cases yields <;> rfl
  induction rs with
  | nil => rfl
  | cons r rs ih =>
    have hr := hone r
    rw [← List.singleton_append]
    simp only [List.countP_append, List.length_append, List.length_singleton]
    omega

/-! ## What is left out -/

theorem productive_append (rs rs' : List Recipe) :
    productive (rs ++ rs') = productive rs ++ productive rs' :=
  List.filter_append rs rs'

/-- The producers among some recipes are those among the productive ones: no other leaves a trace. -/
theorem ofList_productive (rs : List Recipe) :
    Producers.ofList (productive rs) = Producers.ofList rs := by
  rw [Producers.ofList, productive, List.foldl_filter, Producers.ofList]
  congr 1
  funext p r
  split
  · rfl
  · next h => exact (Producers.insert_of_not_productive h p).symm

/-- Recipes of which the same are productive have producers that answer alike. -/
theorem sameAnswers_of_productive_eq {rs rs' : List Recipe} (h : productive rs = productive rs') :
    (Producers.ofList rs).SameAnswers (Producers.ofList rs') := by
  rw [← ofList_productive rs, h, ofList_productive]
  exact .refl _

/-! ## Degraded documents -/

/-- A document that describes no way to make anything. -/
inductive Degraded (d : RecipeText) : Prop where
  /-- The text or one of its fields has a fault. -/
  | malformed {fault : Document.Fault}
      (hfault : Document.readRecipes d.text d.filename = .error fault)
  /-- No type is declared. -/
  | untyped {doc : Json} (hdoc : Json.parse? d.text = some doc)
      (htype : (doc.field? "type").bind Json.text? = none)
  /-- The declared type means nothing here. -/
  | unrecognized {doc : Json} {type : String} (hdoc : Json.parse? d.text = some doc)
      (htype : (doc.field? "type").bind Json.text? = some type)
      (hlayout : Document.Layout.ofType type = .unrecognized)
  /-- The declared type is one of those that only change how something looks. -/
  | cosmetic {doc : Json} {type : String} (hdoc : Json.parse? d.text = some doc)
      (htype : (doc.field? "type").bind Json.text? = some type)
      (hlayout : Document.Layout.ofType type = .cosmetic)

/-- A text that parses leaves what its document describes. -/
theorem readOrMark_of_recipes {d : RecipeText} {doc : Json} {rs : List Recipe}
    (hdoc : Json.parse? d.text = some doc) (hrs : Document.recipes doc d.filename = .ok rs) :
    Document.readOrMark d.text d.filename = rs := by
  have hread : Document.readRecipes d.text d.filename = .ok rs := by
    rw [Document.readRecipes, hdoc]
    exact hrs
  rw [Document.readOrMark, hread]

/-- What a degraded document leaves is a mark. -/
theorem readOrMark_of_degraded {d : RecipeText} (h : Degraded d) :
    Document.readOrMark d.text d.filename = [Recipe.unreadable d.filename] ∨
      Document.readOrMark d.text d.filename = [Recipe.cosmetic d.filename] := by
  cases h with
  | malformed hfault =>
    rw [Document.readOrMark, hfault]
    exact Or.inl rfl
  | untyped hdoc htype =>
    refine Or.inl (readOrMark_of_recipes hdoc ?_)
    rw [Document.recipes, htype]
  | unrecognized hdoc htype hlayout =>
    refine Or.inl (readOrMark_of_recipes hdoc ?_)
    simp only [Document.recipes, htype, hlayout]
  | cosmetic hdoc htype hlayout =>
    refine Or.inr (readOrMark_of_recipes hdoc ?_)
    simp only [Document.recipes, htype, hlayout]

/-- The batch with degraded documents put in anywhere. -/
inductive Padded : (batch padded : List RecipeText) → Prop where
  | nil : Padded [] []
  | keep (d : RecipeText) {batch padded : List RecipeText} (h : Padded batch padded) :
      Padded (d :: batch) (d :: padded)
  | insert {d : RecipeText} (hd : Degraded d) {batch padded : List RecipeText}
      (h : Padded batch padded) : Padded batch (d :: padded)

variable {c : Catalogue}

theorem extract_cons (d : RecipeText) (documents : List RecipeText) :
    extract c (d :: documents) =
      (Document.readOrMark d.text d.filename).map (attach c) ++ extract c documents := by
  rw [extract, List.flatMap_cons, List.map_append, extract]

/-- Degraded documents add nothing to what a batch makes. -/
theorem productive_extract_of_padded {batch padded : List RecipeText} (h : Padded batch padded) :
    productive (extract c batch) = productive (extract c padded) := by
  induction h with
  | nil => rfl
  | keep d _ ih => rw [extract_cons, extract_cons, productive_append, productive_append, ih]
  | insert hd _ ih =>
    rw [extract_cons, productive_append, ih]
    rcases readOrMark_of_degraded hd with hmark | hmark
    · rw [hmark]
      rfl
    · rw [hmark]
      rfl

/-- The tally counts as kept what is productive and what the producers hold, and of all recipes each
is kept, unknown, ignored or without a product. What is not productive makes no difference to any
answer, so none is made by degraded documents anywhere in a batch. -/
theorem productive_suffice (documents : Nat) (rs : List Recipe) :
    let t := tally documents rs
    (t.kept = (productive rs).length ∧ t.kept = (Producers.ofList rs).size ∧
      t.kept + t.unknown + t.ignored + t.emptyOutput = t.emitted ∧ t.emitted = rs.length) ∧
    (Producers.ofList rs).SameAnswers (Producers.ofList (productive rs)) ∧
    ∀ (c : Catalogue) (batch padded : List RecipeText), Padded batch padded →
      (Producers.ofList (extract c batch)).SameAnswers (Producers.ofList (extract c padded)) := by
  intro t
  have ht : t = _ := tally_eq documents rs
  refine ⟨⟨?_, ?_, ?_, ?_⟩, ?_, fun c batch padded h => ?_⟩
  · rw [ht]
  · rw [ht, Producers.size_ofList, productive]
  · rw [ht, productive, ← List.countP_eq_length_filter]
    exact countP_add_eq_length rs
  · rw [ht]
  · rw [ofList_productive]
    exact .refl _
  · exact sameAnswers_of_productive_eq (productive_extract_of_padded h)

/-- One document for charcoal among one that breaks off, one that changes looks, one without a type and
one of a type from elsewhere: of five recipes one is kept, and charcoal has the same alternatives and
expansion as without the others. -/
theorem productive_suffice_charcoal :
    let charcoal : RecipeText := ⟨"charcoal.json",
      "\x7b\"type\":\"smelting\",\"ingredient\":\"oak_log\",\"result\":\"charcoal\"\x7d"⟩
    let padded := [⟨"broken.json", "\x7b\"type\":"⟩, charcoal,
      ⟨"trim.json", "\x7b\"type\":\"minecraft:smithing_trim\"\x7d"⟩, ⟨"empty.json", "\x7b\x7d"⟩,
      ⟨"mod.json", "\x7b\"type\":\"create:crushing\"\x7d"⟩]
    let c : Catalogue := ⟨[], []⟩
    let p := Producers.ofList (extract c [charcoal])
    let q := Producers.ofList (extract c padded)
    let m := Material.parse "minecraft:charcoal"
    tally 5 (extract c padded) = ⟨5, 5, 1, 3, 1, 0⟩ ∧ q.size = 1 ∧ Padded [charcoal] padded ∧
      (p.keyed m).length = 1 ∧ p.keyed m = q.keyed m ∧
      Expansion.ofMaterial p m .default = Expansion.ofMaterial q m .default := by
  intro charcoal padded c p q m
  have htally : tally 5 (extract c padded) = ⟨5, 5, 1, 3, 1, 0⟩ := by decide +kernel
  have hbroken : Document.readRecipes "\x7b\"type\":" "broken.json" = .error .notJson := by
    decide +kernel
  have hpadded : Padded [charcoal] padded := by
    refine .insert (.malformed hbroken) (.keep charcoal ?_)
    refine .insert (.cosmetic rfl rfl (by decide +kernel)) ?_
    refine .insert (.untyped rfl rfl) ?_
    exact .insert (.unrecognized rfl rfl (by decide +kernel)) .nil
  obtain ⟨⟨-, hsize, -, -⟩, -, hbatches⟩ := productive_suffice 5 (extract c padded)
  have hsame := hbatches c [charcoal] padded hpadded
  rw [htally] at hsize
  exact ⟨htally, hsize.symm, hpadded, by decide +kernel, hsame.keyed m, hsame.expansion m .default⟩

end Extraction

end RecipePlanner

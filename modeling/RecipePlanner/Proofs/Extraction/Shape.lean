import RecipePlanner.Proofs.Document.Asked
import RecipePlanner.Proofs.Document.FanOut
import RecipePlanner.Proofs.Extraction.Emitted

/-!
# The shape of what is read and emitted

Whatever a text holds, reading it gives one mark, or variants of one recipe that differ in nothing but
what they need (`variants_of_readOrMark`): each needs something, they yield at least one unit of one
product, and their method is the one that the declared type names. A recipe without a product is never
emitted, so none is ever counted (`shape_of_batch`).
-/

namespace RecipePlanner

namespace Document

/-! ## Names of types -/

/-- A type of this name declares recipes of this method. The method has a key of its own; `smithing` is
an older name for the one that the key of `.smithing` stands for. -/
def Declares (name : String) (method : Method) : Prop :=
  method.isMarker = false ∧ (name = method.key ∨ name = "smithing" ∧ method = .smithing)

/-- Of two layouts, what holds for the methods of each holds for the method of the one chosen. -/
theorem forall_method?_ite {c : Prop} [Decidable c] {layout other : Layout} {P : Method → Prop}
    (h : c → ∀ method, layout.method? = some method → P method)
    (hother : ∀ method, other.method? = some method → P method) :
    ∀ method, (if c then layout else other).method? = some method → P method := by
  intro method hmethod
  split at hmethod
  · next hc => exact h hc method hmethod
  · exact hother method hmethod

theorem declares_of_eq_none {name : String} {layout : Layout} (hlayout : layout.method? = none) :
    ∀ method, layout.method? = some method → Declares name method := by
  intro method hmethod
  cases hlayout.symm.trans hmethod

theorem declares_of_key {name : String} (method : Method) {layout : Layout}
    (hlayout : layout.method? = some method) (hmarker : method.isMarker = false)
    (hname : name = method.key) :
    ∀ other, layout.method? = some other → Declares name other := by
  intro other hother
  cases hlayout.symm.trans hother
  exact ⟨hmarker, Or.inl hname⟩

theorem declares_of_ofName (name : String) :
    ∀ method, (Layout.ofName name).method? = some method → Declares name method := by
  rw [Layout.ofName]
  -- Cosmetic names come first. All others are keys, save for the older name of smithing.
  refine forall_method?_ite (fun _ => declares_of_eq_none rfl) ?_
  refine forall_method?_ite (declares_of_key .shaped rfl rfl) ?_
  refine forall_method?_ite (declares_of_key .shapeless rfl rfl) ?_
  refine forall_method?_ite (declares_of_key .smelting rfl rfl) ?_
  refine forall_method?_ite (declares_of_key .blasting rfl rfl) ?_
  refine forall_method?_ite (declares_of_key .smoking rfl rfl) ?_
  refine forall_method?_ite (declares_of_key .campfire rfl rfl) ?_
  refine forall_method?_ite (declares_of_key .stonecutting rfl rfl) ?_
  refine forall_method?_ite ?_ ?_
  · rintro hname method ⟨⟩
    exact ⟨rfl, hname.imp_right fun h => ⟨h, rfl⟩⟩
  · exact forall_method?_ite (declares_of_key .transmute rfl rfl) (declares_of_eq_none rfl)

/-- A type names the method of its layout, without blanks at its ends and with or without the default
namespace. -/
theorem declares_of_ofType {type : String} {method : Method}
    (h : (Layout.ofType type).method? = some method) :
    ∃ name, (Text.trim type = name ∨ Text.trim type = "minecraft:" ++ name) ∧
      Declares name method := by
  rw [Layout.ofType] at h
  split at h
  · exact ⟨_, Or.inl rfl, declares_of_ofName _ method h⟩
  · next space name hcut =>
    split at h
    · next hspace =>
      refine ⟨String.ofList name, Or.inr ?_, declares_of_ofName _ method h⟩
      have htrim : Text.trim type = String.ofList (space ++ ':' :: name) := by
        rw [← (Text.eq_of_cutFirst hcut).1, String.ofList_toList]
      have hcolon : "minecraft" ++ String.singleton ':' = "minecraft:" := by decide
      rw [htrim, String.ofList_append, hspace, Naming.defaultNamespace, String.ofList_cons,
        ← String.append_assoc, hcolon]
    · cases h

/-! ## Recipes of a text -/

/-- Recipes that are variants of one: they come of the same file, are carried out by the same method
and yield the same amount of one product. Each needs something, every material of it under an
identifier with a namespace and at least once. -/
structure Variants (filename : String) (method : Method) (product : Stack) (rs : List Recipe) :
    Prop where
  exist : 1 ≤ rs.length
  limited : rs.length ≤ maxCombinations
  yielded : 1 ≤ product.amount.count ∧ product.amount.count ≤ Word.max32
  alike : ∀ r ∈ rs, r.filename = filename ∧ r.method = method ∧ r.yields = [product]
  needing : ∀ r ∈ rs, r.needs ≠ [] ∧ ∀ s ∈ r.needs, 1 ≤ s.amount.count ∧ ':' ∈ s.id.toList

theorem productAmount_pos (doc : Json) : 0 < (productAmount doc).count := by
  rw [productAmount]
  split
  · exact Amount.ofDeclared_pos _
  · decide

/-- Whatever is chosen, something is needed, under a name with a namespace and at least once. -/
theorem needs_of_mem_picks {doc : Json} {layout : Layout} {es : List Ingredient}
    (hes : Legible doc layout es) {names : List String}
    (hnames : names ∈ picks (es.map Ingredient.names)) {r : Recipe} {method : Method}
    {filename : String} {product : Stack}
    (hr : chosenRecipe method filename (es.map Ingredient.slot) product names = r) :
    r.needs ≠ [] ∧ ∀ s ∈ r.needs, 0 < s.amount.count ∧ ':' ∈ s.id.toList := by
  have hpicked := mem_picks_iff.1 hnames
  have hlength : names.length = es.length := by
    rw [hpicked.length_eq, List.length_map]
  have hamounts : r.needs.map Stack.amount = es.map fun e => Amount.clamp e.units := by
    rw [← hr, map_amount_needs_chosenRecipe hlength]
  have hids : r.needs.map Stack.id = names := by
    rw [← hr, map_id_needs_chosenRecipe hpicked]
  constructor
  · -- There is an amount for each ingredient, and ingredients there are.
    intro hnone
    rw [hnone] at hamounts
    exact hes.nonempty (List.map_eq_nil_iff.1 hamounts.symm)
  · intro s hs
    constructor
    · have hamount : s.amount ∈ r.needs.map Stack.amount := List.mem_map_of_mem hs
      rw [hamounts] at hamount
      obtain ⟨e, he, hclamp⟩ := List.mem_map.1 hamount
      have hpos := (units_of_ingredients? hes.asked).2 e he
      rw [← hclamp, Amount.count_clamp, Word.max32]
      omega
    · have hid : s.id ∈ r.needs.map Stack.id := List.mem_map_of_mem hs
      rw [hids] at hid
      obtain ⟨alternatives, halternatives, hmem⟩ := exists_mem_of_mem_picks hnames hid
      obtain ⟨e, -, rfl⟩ := List.mem_map.1 halternatives
      exact colon_mem_of_mem_alternatives hmem

/-- What is read from a text is one mark, or variants of a recipe whose method the declared type
names. -/
theorem variants_of_readOrMark (text filename : String) :
    readOrMark text filename = [Recipe.unreadable filename] ∨
      readOrMark text filename = [Recipe.cosmetic filename] ∨
      ∃ doc type name method product, Json.parse? text = some doc ∧
        (doc.field? "type").bind Json.text? = some type ∧
        (Text.trim type = name ∨ Text.trim type = "minecraft:" ++ name) ∧ Declares name method ∧
        Variants filename method product (readOrMark text filename) := by
  refine (readOrMark_cases text filename).imp_right fun h => h.imp_right ?_
  rintro ⟨doc, type, method, es, product, hdoc, htype, hmethod, hes, hproduct, hcount, hrecipes⟩
  obtain ⟨name, hname, hdeclares⟩ := declares_of_ofType hmethod
  have hlength : (readOrMark text filename).length = combinationCount es := by
    rw [hrecipes, List.length_map, length_picks_eq_prod, length_names]
  refine ⟨doc, type, name, method, product, hdoc, htype, hname, hdeclares, ?_⟩
  constructor
  case exist =>
    rw [hlength]
    exact combinationCount_pos hes.named
  case limited => rwa [hlength]
  case yielded =>
    obtain ⟨_, rfl⟩ := eq_of_productStack hproduct
    exact ⟨productAmount_pos doc, (productAmount doc).count_le⟩
  case alike =>
    intro r hr
    rw [hrecipes] at hr
    obtain ⟨names, -, rfl⟩ := List.mem_map.1 hr
    exact ⟨rfl, rfl, rfl⟩
  case needing =>
    intro r hr
    rw [hrecipes] at hr
    obtain ⟨names, hnames, hr⟩ := List.mem_map.1 hr
    exact needs_of_mem_picks hes hnames hr

end Document

namespace Extraction

open Document

/-! ## Batches -/

/-- Neither a mark nor a recipe that makes something counts as one without a product. -/
theorem emptyOutput_count {t : Tally} {r : Recipe}
    (h : r.isMarker = true ∨ r.isProductive = true) : (t.count r).emptyOutput = t.emptyOutput := by
  rw [Tally.count]
  split
  · rfl
  · rfl
  · next hunknown hignored =>
    split
    · next hyields =>
      -- No product, and the method is that of no mark: neither case of the hypothesis is left.
      exfalso
      rcases h with hmarker | hproductive
      · rw [Recipe.isMarker] at hmarker
        cases hmethod : r.method <;> rw [hmethod] at hmarker <;> cases hmarker
        · exact hignored hmethod
        · exact hunknown hmethod
      · rw [Recipe.isProductive, hyields, Bool.not_true, Bool.and_false] at hproductive
        cases hproductive
    · rfl

theorem emptyOutput_foldl {rs : List Recipe}
    (h : ∀ r ∈ rs, r.isMarker = true ∨ r.isProductive = true) (t : Tally) :
    (rs.foldl Tally.count t).emptyOutput = t.emptyOutput := by
  induction rs generalizing t with
  | nil => rfl
  | cons r rs ih =>
    obtain ⟨hr, hrs⟩ := List.forall_mem_cons.1 h
    rw [List.foldl_cons, ih hrs, emptyOutput_count hr]

/-- What is read from a text is the mark of a text that could not be read, that of a cosmetic document,
or up to `maxCombinations` variants of a recipe whose method the declared type names. Whatever a
catalogue holds, a recipe that a batch emits is a mark or makes something, and the tally of the batch
counts none without a product. -/
theorem shape_of_batch (text filename : String) (c : Catalogue) (documents : List RecipeText)
    (n : Nat) :
    (readOrMark text filename = [⟨.unknown, filename, [], []⟩] ∨
      readOrMark text filename = [⟨.ignored, filename, [], []⟩] ∨
      ∃ doc type name method product, Json.parse? text = some doc ∧
        (doc.field? "type").bind Json.text? = some type ∧
        (Text.trim type = name ∨ Text.trim type = "minecraft:" ++ name) ∧ Declares name method ∧
        Variants filename method product (readOrMark text filename)) ∧
    (∀ r ∈ extract c documents, r.isMarker = true ∨ r.isProductive = true) ∧
      (tally n (extract c documents)).emptyOutput = 0 := by
  have hemitted : ∀ r ∈ extract c documents, r.isMarker = true ∨ r.isProductive = true := by
    intro r hr
    cases hmarker : r.isMarker with
    | true => exact Or.inl rfl
    | false => exact Or.inr (isProductive_of_mem_extract hr hmarker)
  exact ⟨variants_of_readOrMark text filename, hemitted, emptyOutput_foldl hemitted _⟩

end Extraction

end RecipePlanner

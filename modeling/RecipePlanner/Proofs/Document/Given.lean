import RecipePlanner.Document.Recipes
import RecipePlanner.Proofs.Outcome

/-!
# What a document gives

A recipe that a text gives is one of three things (`given_of_mem_readOrMark`): the mark of a text
that could not be read, the mark of a cosmetic document, or a way to make something. The last has a
method that is no mark, needs materials that are read from names, and yields one item.
-/

namespace RecipePlanner.Document

/-- A recipe that a document of this name may give. -/
inductive Given (filename : String) : Recipe → Prop where
  | unreadable : Given filename (Recipe.unreadable filename)
  | cosmetic : Given filename (Recipe.cosmetic filename)
  | made {method : Method} {needs : List Stack} (hmethod : method.isMarker = false)
      (hneeds : ∀ s ∈ needs, ∃ name, s.material = Material.parse name)
      (product : String) (amount : Amount) :
      Given filename ⟨method, filename, needs,
        [⟨Material.ofItemId (Naming.qualified product), amount⟩]⟩

variable {filename : String}

/-- What a document yields is the item named in it. -/
theorem eq_of_productStack {doc : Json} {s : Stack} (h : productStack doc = .ok s) :
    ∃ name, s = ⟨Material.ofItemId (Naming.qualified name), productAmount doc⟩ := by
  obtain ⟨material, hmaterial, hs⟩ := Outcome.bind_eq_ok_iff.1 h
  rw [product] at hmaterial
  split at hmaterial
  · next form name hform =>
    cases hmaterial
    cases hs
    exact ⟨name, rfl⟩
  · split at hmaterial <;> cases hmaterial

theorem exists_parse_of_mem_zipWith {names : List String} {slots : List Slot} {s : Stack}
    (h : s ∈ names.zipWith (fun name slot => ⟨Material.parse name, slot.amount⟩) slots) :
    ∃ name, s.material = Material.parse name := by
  induction names generalizing slots with
  | nil => cases h
  | cons name names ih =>
    cases slots with
    | nil => cases h
    | cons slot slots =>
      rw [List.zipWith_cons_cons] at h
      rcases List.mem_cons.1 h with rfl | h
      · refine ⟨name, ?_⟩
        dsimp only
      · exact ih h

/-- What is assembled with a method that is no mark makes something. -/
theorem given_of_assemble {doc : Json} {method : Method} (hmethod : method.isMarker = false)
    {slots : Except Fault (List Slot)} {rs : List Recipe}
    (h : assemble doc filename method slots = .ok rs) : ∀ r ∈ rs, Given filename r := by
  obtain ⟨slots, -, h⟩ := Outcome.bind_eq_ok_iff.1 h
  obtain ⟨stack, hstack, h⟩ := Outcome.bind_eq_ok_iff.1 h
  obtain ⟨choices, -, h⟩ := Outcome.bind_eq_ok_iff.1 h
  obtain ⟨product, rfl⟩ := eq_of_productStack hstack
  cases h
  intro r hr
  obtain ⟨names, -, rfl⟩ := List.mem_map.1 hr
  exact .made hmethod (fun s hs => exists_parse_of_mem_zipWith hs) product _

/-- A choice between two layouts has no method that is a mark if neither layout has one. -/
theorem isMarker_of_ite {c : Prop} [Decidable c] {layout other : Layout}
    (h : ∀ method, layout = .single method → method.isMarker = false)
    (hother : ∀ method, other = .single method → method.isMarker = false) :
    ∀ method, (if c then layout else other) = .single method → method.isMarker = false := by
  split
  · exact h
  · exact hother

theorem isMarker_of_ofName (name : String) :
    ∀ method, Layout.ofName name = .single method → method.isMarker = false := by
  rw [Layout.ofName]
  -- The names are told apart one after the other; only those of one ingredient have a method.
  repeat' refine isMarker_of_ite ?_ ?_
  all_goals rintro method ⟨⟩
  all_goals rfl

/-- The methods of single ingredients are no marks. -/
theorem isMarker_of_ofType (type : String) :
    ∀ method, Layout.ofType type = .single method → method.isMarker = false := by
  rw [Layout.ofType]
  split
  · exact isMarker_of_ofName _
  · exact isMarker_of_ite (isMarker_of_ofName _) nofun

theorem given_of_recipes {doc : Json} {rs : List Recipe} (h : recipes doc filename = .ok rs) :
    ∀ r ∈ rs, Given filename r := by
  have hunreadable : ∀ r ∈ [Recipe.unreadable filename], Given filename r :=
    List.forall_mem_singleton.2 .unreadable
  rw [recipes] at h
  split at h
  · cases h
    exact hunreadable
  · next type _ =>
    cases hlayout : Layout.ofType type <;> rw [hlayout] at h
    case shaped => exact given_of_assemble rfl h
    case shapeless => exact given_of_assemble rfl h
    case single method => exact given_of_assemble (isMarker_of_ofType type method hlayout) h
    case smithing => exact given_of_assemble rfl h
    case transmute => exact given_of_assemble rfl h
    case cosmetic =>
      cases h
      exact List.forall_mem_singleton.2 .cosmetic
    case unrecognized =>
      cases h
      exact hunreadable

/-- A text gives marks and ways to make something, and nothing else. -/
theorem given_of_mem_readOrMark {text : String} {r : Recipe} (h : r ∈ readOrMark text filename) :
    Given filename r := by
  rw [readOrMark] at h
  split at h
  · next rs hrs =>
    rw [readRecipes] at hrs
    split at hrs
    · cases hrs
    · exact given_of_recipes hrs r h
  · rw [List.mem_singleton.1 h]
    exact .unreadable

end RecipePlanner.Document

import RecipePlanner.Proofs.Expansion.Nodes
import RecipePlanner.Proofs.Route.Built
import RecipePlanner.Samples

/-!
# Routes that follow an expansion

A route follows an expansion if each of its nodes stands for a node of the expansion: it has no
choice, or the key of a branch there, and its parts follow what the branch needs, as far as that is
no cycle. Such a route is put together by adding part after part, none of which is dropped, and it is
read back from its text (`decode?_encode_of_follows`).

Expansions and routes know nothing of each other. What ties them is that the lineage under which an
expansion is grown holds the items above a node of the route: a need that is no cycle is new to it,
so no item repeats (`lineal_of_follows`), and each level of the route uses up one of the expansion
(`depth_le_of_follows`). At most 62 levels below the root, one more for what is cut off there, and
the root itself make the 64 levels that a route may have.
-/

namespace RecipePlanner.Route

open Expansion (growTo ofMaterial)

mutual

/-- The route makes its choices among the branches of the expansion. What follows a branch has its
key as choice, and each part follows something that the branch needs and that is no cycle. -/
def Follows : Expansion → Route → Prop
  | e, node item choice parts =>
    item = e.material.id ∧
      ((choice = none ∧ parts = []) ∨
        ∃ b ∈ e.branches, choice = some b.key ∧ AllFollow b.needs parts)

/-- Each of some routes follows one of some expansions that is no cycle. -/
def AllFollow (needs : List Expansion) : List Route → Prop
  | [] => True
  | part :: parts =>
    (∃ need ∈ needs, need.stop ≠ some .cycle ∧ Follows need part) ∧ AllFollow needs parts

end

mutual

/-- Whether a route follows an expansion can be computed. -/
def decFollows : ∀ (e : Expansion) (r : Route), Decidable (Follows e r)
  | e, node item choice parts =>
    have (b : Branch) : Decidable (AllFollow b.needs parts) := decAllFollow b.needs parts
    decidable_of_iff
      (item = e.material.id ∧
        ((choice = none ∧ parts = []) ∨
          ∃ b ∈ e.branches, choice = some b.key ∧ AllFollow b.needs parts))
      (by rw [Follows])

/-- Whether routes follow some expansions can be computed. -/
def decAllFollow (needs : List Expansion) : ∀ parts : List Route, Decidable (AllFollow needs parts)
  | [] => .isTrue trivial
  | part :: parts =>
    have (need : Expansion) : Decidable (Follows need part) := decFollows need part
    have : Decidable (AllFollow needs parts) := decAllFollow needs parts
    decidable_of_iff
      ((∃ need ∈ needs, need.stop ≠ some .cycle ∧ Follows need part) ∧ AllFollow needs parts)
      (by rw [AllFollow])

end

instance (e : Expansion) (r : Route) : Decidable (Follows e r) := decFollows e r

mutual

/-- The route put together again from single nodes, part after part. -/
def assembled : Route → Route
  | node item none parts => withParts (ofItem item) parts
  | node item (some choice) parts => withParts (chosen item choice) parts

/-- A route with some parts put together and added one after the other. -/
def withParts (r : Route) : List Route → Route
  | [] => r
  | part :: parts => withParts (r.withPart (assembled part)) parts

end

/-! ## Putting a route together -/

theorem assembled_node (item : String) (choice : Option String) (parts : List Route) :
    assembled (node item choice parts) = withParts (node item choice []) parts := by
  cases choice <;> rw [assembled] <;> rfl

/-- Parts that keep the rules of the root are all added. -/
theorem withParts_eq {item : String} {choice : Option String} {parts : List Route}
    (hparts : ∀ p ∈ parts, assembled p = p ∧ item ∉ p.items ∧ p.depth < maxDepth)
    (done : List Route) :
    withParts (node item choice done) parts = node item choice (done ++ parts) := by
  induction parts generalizing done with
  | nil => rw [withParts, List.append_nil]
  | cons p parts ih =>
    obtain ⟨⟨hp, hitem, hdepth⟩, hparts⟩ := List.forall_mem_cons.1 hparts
    have hkept : ¬ (item ∈ p.items ∨ p.depth ≥ maxDepth) := by
      rw [not_or, Nat.not_le]
      exact ⟨hitem, hdepth⟩
    have hadded : (node item choice done).withPart p = node item choice (done ++ [p]) :=
      if_neg hkept
    rw [withParts, hp, hadded, ih hparts, List.append_assoc, List.singleton_append]

/-- Nothing is dropped where no item repeats along a lineage and the route is not too deep. -/
theorem assembled_eq_self {r : Route} (hr : Ruled r) : assembled r = r := by
  induction r using induct with
  | hnode item choice parts ih =>
    have hlineal := lineal_node_iff.1 hr.lineal
    have hdepth : ∀ p ∈ parts, p.depth ≤ maxDepth - 1 := depth_node_le_iff.1 hr.depth
    rw [assembled_node, withParts_eq, List.nil_append]
    intro p hp
    have hlevels := hdepth p hp
    have hroom : p.depth < maxDepth := Nat.lt_of_le_of_lt hlevels (by decide)
    exact ⟨ih p hp ⟨(hlineal p hp).2, Nat.le_of_lt hroom⟩, (hlineal p hp).1, hroom⟩

/-! ## What a followed expansion says of the route -/

theorem allFollow_iff {needs : List Expansion} {parts : List Route} :
    AllFollow needs parts ↔
      ∀ part ∈ parts, ∃ need ∈ needs, need.stop ≠ some .cycle ∧ Follows need part := by
  induction parts with
  | nil => simp [AllFollow]
  | cons part parts ih => rw [AllFollow, ih, List.forall_mem_cons]

section Grown

variable {p : Producers} {width n : Nat} {lineage : List String} {m : Material} {r : Route}

/-- A route that follows a grown expansion is a node without a choice, or it follows a branch: one
level is used up, and its parts stand for needs that are new to the lineage. -/
theorem follows_growTo_cases (h : Follows (growTo p width n lineage m) r) :
    r = ofItem m.id ∨
      ∃ k ∈ p.keyed m, ∃ l parts, n = l + 1 ∧ r = node m.id (some k.key) parts ∧
        ∀ part ∈ parts, ∃ need ∈ k.recipe.distinctNeeds, need.id ∉ m.id :: lineage ∧
          Follows (growTo p width l (m.id :: lineage) need) part := by
  obtain ⟨item, choice, parts⟩ := r
  rw [Follows, Expansion.material_growTo] at h
  obtain ⟨rfl, ⟨rfl, rfl⟩ | ⟨b, hb, rfl, hparts⟩⟩ := h
  · exact Or.inl rfl
  · obtain ⟨l, rfl, -, hk, hneeds⟩ := Expansion.growTo_of_mem_branches hb
    refine Or.inr ⟨_, hk, l, parts, rfl, rfl, fun part hpart => ?_⟩
    obtain ⟨e, he, hstop, hfollows⟩ := allFollow_iff.1 hparts part hpart
    rw [hneeds] at he
    obtain ⟨need, hneed, rfl⟩ := List.mem_map.1 he
    -- A need whose item is in the lineage would be a cycle.
    refine ⟨need, hneed, fun hmem => hstop ?_, hfollows⟩
    rw [Expansion.growTo_of_mem hmem]
    rfl

theorem depth_le_of_follows (h : Follows (growTo p width n lineage m) r) : r.depth ≤ n + 1 := by
  induction r using induct generalizing n lineage m with
  | hnode item choice parts ih =>
    rcases follows_growTo_cases h with hr | ⟨k, -, l, parts', rfl, hr, hparts⟩
    · rw [hr]
      exact Nat.le_add_left 1 n
    · cases hr
      refine depth_node_le_iff.2 fun part hpart => ?_
      obtain ⟨need, -, -, hfollows⟩ := hparts part hpart
      exact ih part hpart hfollows

/-- No item of the route is in the lineage under which the expansion is grown. -/
theorem not_mem_lineage_of_follows (hnew : m.id ∉ lineage)
    (h : Follows (growTo p width n lineage m) r) : ∀ i ∈ r.items, i ∉ lineage := by
  induction r using induct generalizing n lineage m with
  | hnode item choice parts ih =>
    rcases follows_growTo_cases h with hr | ⟨k, -, l, parts', -, hr, hparts⟩
    · rw [hr]
      exact List.forall_mem_singleton.2 hnew
    · cases hr
      rw [items, List.forall_mem_cons]
      refine ⟨hnew, fun i hi hmem => ?_⟩
      obtain ⟨part, hpart, hi⟩ := mem_itemsOfAll_iff.1 hi
      -- The lineage of a part holds that of the node.
      obtain ⟨need, -, hneed, hfollows⟩ := hparts part hpart
      exact ih part hpart hneed hfollows i hi (List.mem_cons_of_mem _ hmem)

theorem lineal_of_follows (h : Follows (growTo p width n lineage m) r) : r.Lineal := by
  induction r using induct generalizing n lineage m with
  | hnode item choice parts ih =>
    rcases follows_growTo_cases h with hr | ⟨k, -, l, parts', -, hr, hparts⟩
    · rw [hr]
      exact (ruled_single _ _).lineal
    · cases hr
      refine lineal_node_iff.2 fun part hpart => ?_
      obtain ⟨need, -, hneed, hfollows⟩ := hparts part hpart
      have hitem : m.id ∉ part.items := fun hmem =>
        not_mem_lineage_of_follows hneed hfollows m.id hmem List.mem_cons_self
      exact ⟨hitem, ih part hpart hfollows⟩

/-- The texts of the route are identifiers of what recipes need, and keys. -/
theorem filled_of_follows (hneeds : ∀ q ∈ p.recipes, ∀ s ∈ q.needs, s.id ≠ "") (hm : m.id ≠ "")
    (h : Follows (growTo p width n lineage m) r) : r.Filled := by
  induction r using induct generalizing n lineage m with
  | hnode item choice parts ih =>
    rcases follows_growTo_cases h with hr | ⟨k, hk, l, parts', -, hr, hparts⟩
    · rw [hr]
      exact filled_single hm nofun
    · cases hr
      have hkey : k.key ≠ "" := Producers.key_ne_empty_of_mem_keyed hk
      refine filled_node_iff.2 ⟨hm, fun heq => hkey (Option.some.inj heq), fun part hpart => ?_⟩
      obtain ⟨need, hneed, -, hfollows⟩ := hparts part hpart
      obtain ⟨s, hs, hid⟩ := Recipe.exists_stack_of_mem_distinctNeeds hneed
      have hrecipe := Producers.mem_recipes_of_mem_producing (Producers.mem_of_mem_keyed hk).2
      refine ih part hpart ?_ hfollows
      rw [← hid]
      exact hneeds k.recipe hrecipe s hs

end Grown

/-! ## Reading back -/

/-- A route that follows the expansion of a material to a depth of at most 62 loses no part when it
is put together, and it is read back from its text, provided that the material and all that recipes
need have identifiers. -/
theorem decode?_encode_of_follows {p : Producers} {m : Material} {limits : Limits} {r : Route}
    (hneeds : ∀ q ∈ p.recipes, ∀ s ∈ q.needs, s.id ≠ "") (hm : m.id ≠ "")
    (hdepth : limits.depth ≤ 62) (hr : Follows (ofMaterial p m limits) r) :
    assembled r = r ∧ decode? (encode r) = some r := by
  rw [Expansion.ofMaterial_eq_growTo] at hr
  have hlevels : r.depth ≤ maxDepth := by
    have hle := depth_le_of_follows hr
    have hmax : maxDepth = 64 := rfl
    omega
  have hruled : Ruled r := ⟨lineal_of_follows hr, hlevels⟩
  have hfilled := filled_of_follows hneeds hm hr
  exact ⟨assembled_eq_self hruled, decode?_encode hfilled hruled.lineal hruled.depth⟩

/-- A torch of coal and a stick, where the planks for the stick are left open: the route follows the
expansion, it is put together without loss, and it is read back. -/
theorem decode?_encode_of_follows_torch :
    let p := Producers.ofList Samples.wood
    let m := Material.ofItemId "minecraft:torch"
    let r := node "minecraft:torch" (some "crafting_shaped.torch")
      [ofItem "minecraft:coal",
        node "minecraft:stick" (some "crafting_shaped") [ofItem "#minecraft:planks"]]
    (∀ q ∈ p.recipes, ∀ s ∈ q.needs, s.id ≠ "") ∧ m.id ≠ "" ∧
      Follows (ofMaterial p m ⟨62, 5⟩) r ∧ assembled r = r ∧ decode? (encode r) = some r := by
  intro p m r
  have hneeds : ∀ q ∈ p.recipes, ∀ s ∈ q.needs, s.id ≠ "" := by decide +kernel
  have hm : m.id ≠ "" := by decide
  have hr : Follows (ofMaterial p m ⟨62, 5⟩) r := by decide +kernel
  exact ⟨hneeds, hm, hr, decode?_encode_of_follows hneeds hm (Nat.le_refl 62) hr⟩

end RecipePlanner.Route

import Mathlib.Data.Finset.Card
import RecipePlanner.Proofs.Expansion.Pruning
import RecipePlanner.Proofs.Expansion.Search
import RecipePlanner.Proofs.Expansion.Stops

/-!
# How deep an expansion goes

The depth allowed matters only while it is small. On the way down to a node that is no cycle no
identifier occurs twice (`nodup_above_of_nodeAt`), and all of them but that of the root are needed by
some recipe (`mem_neededIds_of_nodeAt`), so such a node stands at most as many levels below the root
as there are needed identifiers (`length_above_le`). With that depth no node is cut off, and a
greater one changes nothing, because a cut that ends no node leaves an expansion as it is
(`cutAt_eq_self`).
-/

namespace RecipePlanner

/-- The identifiers that the recipes need. -/
def Producers.neededIds (p : Producers) : Finset String :=
  (p.recipes.toList.flatMap fun r => r.needs.map Stack.id).toFinset

namespace Expansion

/-! ## The way down to a node -/

section Way

variable {p : Producers} {m : Material} {limits : Limits} {above : List Material} {e : Expansion}

/-- A node whose identifier occurs above it is a cycle. -/
theorem stop_eq_cycle_of_mem_above (h : NodeAt (ofMaterial p m limits) above e)
    (hmem : e.material.id ∈ above.map Material.id) : e.stop = some .cycle := by
  rw [ofMaterial_eq_growTo] at h
  obtain ⟨k, -, he⟩ := eq_growTo_of_nodeAt h
  rw [List.append_nil] at he
  rw [he, growTo_of_mem hmem]
  rfl

/-- No identifier occurs twice among those above a node. -/
theorem nodup_above_of_nodeAt (h : NodeAt (ofMaterial p m limits) above e) :
    (above.map Material.id).Nodup := by
  induction h with
  | root => exact List.nodup_nil
  | need hparent hb _ ih =>
    rw [List.map_cons, List.nodup_cons]
    exact ⟨(branch_of_nodeAt hparent hb).1, ih⟩

/-- What a branch needs is among the needed identifiers. -/
theorem id_mem_neededIds_of_branch (h : NodeAt (ofMaterial p m limits) above e) {b : Branch}
    (hb : b ∈ e.branches) {child : Expansion} (hc : child ∈ b.needs) :
    child.material.id ∈ p.neededIds := by
  obtain ⟨-, hchoice, hneeds⟩ := branch_of_nodeAt h hb
  have hrecipe : b.recipe ∈ p.recipes :=
    Producers.mem_recipes_of_mem_producing (Producers.mem_of_mem_keyed hchoice).2
  have hneed : child.material ∈ b.recipe.distinctNeeds := by
    rw [← hneeds]
    exact List.mem_map_of_mem hc
  obtain ⟨s, hs, hid⟩ := Recipe.exists_stack_of_mem_distinctNeeds hneed
  rw [Producers.neededIds, List.mem_toFinset, List.mem_flatMap]
  exact ⟨b.recipe, Array.mem_toList_iff.2 hrecipe, List.mem_map.2 ⟨s, hs, hid⟩⟩

/-- On the way down to a node, every identifier but that of the root is needed by a recipe. -/
theorem mem_neededIds_of_nodeAt (h : NodeAt (ofMaterial p m limits) above e) :
    ∀ x ∈ (e.material :: above).dropLast, x.id ∈ p.neededIds := by
  induction h with
  | root => exact List.forall_mem_nil _
  | @need above parent child b hparent hb hc ih =>
    rw [List.dropLast_cons_cons, List.forall_mem_cons]
    exact ⟨id_mem_neededIds_of_branch hparent hb hc, ih⟩

/-- A node that repeats no identifier from above stands at most as many levels below the root as
there are needed identifiers. -/
theorem length_above_le (h : NodeAt (ofMaterial p m limits) above e)
    (hnew : e.material.id ∉ above.map Material.id) : above.length ≤ p.neededIds.card := by
  -- The identifiers on the way without the root's: as many as levels, all different and needed.
  let way := (e.material :: above).dropLast.map Material.id
  have hlength : way.length = above.length := by
    rw [List.length_map, List.length_dropLast, List.length_cons, Nat.add_sub_cancel]
  have hnodup : way.Nodup := by
    have hall : ((e.material :: above).map Material.id).Nodup :=
      List.nodup_cons.2 ⟨hnew, nodup_above_of_nodeAt h⟩
    exact hall.sublist ((List.dropLast_sublist _).map _)
  have hneeded : way.toFinset ⊆ p.neededIds := by
    intro id hid
    obtain ⟨x, hx, rfl⟩ := List.mem_map.1 (List.mem_toFinset.1 hid)
    exact mem_neededIds_of_nodeAt h x hx
  rw [← hlength, ← List.toFinset_card_of_nodup hnodup]
  exact Finset.card_le_card hneeded

/-- No node stands more than one level below the last one that repeats no identifier. -/
theorem length_above_le_succ (h : NodeAt (ofMaterial p m limits) above e) :
    above.length ≤ p.neededIds.card + 1 := by
  cases h with
  | root => exact Nat.zero_le _
  | need hparent hb _ =>
    apply Nat.succ_le_succ
    exact length_above_le hparent (branch_of_nodeAt hparent hb).1

/-- A node is cut off only on the last level. -/
theorem length_above_of_depthLimit (hp : p.InRange) (h : NodeAt (ofMaterial p m limits) above e)
    (hstop : e.stop = some .depthLimit) : above.length = limits.depth + 1 := by
  rw [ofMaterial_eq_growTo] at h
  obtain ⟨k, hk, he⟩ := eq_growTo_of_nodeAt h
  rw [he, stop_growTo hp] at hstop
  -- Of the reasons to stop this one is given only where no level is left.
  have hlast : k = 0 := by grind
  omega

end Way

/-! ## Cuts that end no node -/

/-- A cut that leaves no node ended by the depth limit has changed nothing. -/
theorem cutAt_eq_self {level : Nat} {e : Expansion}
    (h : ∀ above x, NodeAt (cutAt level e) above x → x.stop ≠ some .depthLimit) :
    cutAt level e = e := by
  induction level generalizing e with
  | zero =>
    obtain ⟨m, bs, more, stop⟩ := e
    have hroot := h [] _ .root
    rw [cutAt] at hroot ⊢
    split at hroot
    · exact absurd rfl hroot
    · next hstop => exact if_neg hstop
  | succ level ih =>
    obtain ⟨m, bs, more, stop⟩ := e
    have hbranch : ∀ b ∈ bs, b.mapNeeds (cutAt level) = b := by
      rintro ⟨choice, score, needs⟩ hb
      have hneed : ∀ c ∈ needs, cutAt level c = c := by
        intro c hc
        apply ih
        -- What stands below a need that was cut stands below the root that was cut.
        intro above x hx
        apply h _ x (nodeAt_of_need hx (List.mem_map_of_mem hb) (List.mem_map_of_mem hc))
      rw [Branch.mapNeeds, List.map_congr_left hneed, List.map_id']
    rw [cutAt, List.map_congr_left hbranch, List.map_id']

/-! ## Depth that is not used -/

/-- The recipes bound the levels of an expansion, whatever depth is allowed: a node stands at most
one level deeper than there are needed identifiers. With as much depth as there are needed
identifiers no node is cut off, and any greater depth gives the same expansion. -/
theorem levels_bounded (rs : List Recipe) (m : Material) (limits : Limits) :
    (∀ above e, NodeAt (ofMaterial (Producers.ofList rs) m limits) above e →
      above.length ≤ (Producers.ofList rs).neededIds.card + 1) ∧
    ((Producers.ofList rs).neededIds.card ≤ limits.depth →
      (∀ above e, NodeAt (ofMaterial (Producers.ofList rs) m limits) above e →
        e.stop ≠ some .depthLimit) ∧
      ∀ depth, limits.depth ≤ depth →
        ofMaterial (Producers.ofList rs) m ⟨depth, limits.width⟩ =
          ofMaterial (Producers.ofList rs) m limits) := by
  have hrange := Producers.inRange_ofList rs
  refine ⟨fun above e h => length_above_le_succ h, fun hdepth => ?_⟩
  have hlimit : ∀ above e, NodeAt (ofMaterial (Producers.ofList rs) m limits) above e →
      e.stop ≠ some .depthLimit := by
    intro above e h hstop
    -- What is cut off is no cycle, so it would stand on a level that no way down reaches.
    have hnew : e.material.id ∉ above.map Material.id := by
      intro hmem
      rw [stop_eq_cycle_of_mem_above h hmem] at hstop
      cases hstop
    have hlevel := length_above_of_depthLimit hrange h hstop
    have hbound := length_above_le h hnew
    omega
  refine ⟨hlimit, fun depth hle => ?_⟩
  have hcut : ofMaterial (Producers.ofList rs) m limits =
      cutAt (limits.depth + 1) (ofMaterial (Producers.ofList rs) m ⟨depth, limits.width⟩) :=
    (cutAt_growTo hrange limits.width (Nat.succ_le_succ hle) [] m).symm
  -- The shallower expansion is the deeper one cut off, and the cut ends no node.
  rw [hcut] at hlimit ⊢
  exact (cutAt_eq_self hlimit).symm

/-- Four materials are needed in the collection of iron, so four levels below a pickaxe are enough:
all the levels that 32 bits can count add nothing. -/
theorem levels_bounded_pickaxe :
    let p := Producers.ofList Samples.iron
    let pickaxe := Material.ofItemId "minecraft:iron_pickaxe"
    p.neededIds.card ≤ 4 ∧
      (∀ above e, NodeAt (ofMaterial p pickaxe ⟨4, 5⟩) above e → e.stop ≠ some .depthLimit) ∧
      ofMaterial p pickaxe ⟨4294967295, 5⟩ = ofMaterial p pickaxe ⟨4, 5⟩ := by
  intro p pickaxe
  have hcard : p.neededIds.card ≤ 4 := by decide +kernel
  obtain ⟨hlimit, hdeeper⟩ := (levels_bounded Samples.iron pickaxe ⟨4, 5⟩).2 hcard
  exact ⟨hcard, hlimit, hdeeper 4294967295 (by decide)⟩

end Expansion

end RecipePlanner

import RecipePlanner.Proofs.Expansion.BaseNodes

/-!
# What the score of a branch tells

A branch is scored before its needs are expanded: by the number of materials that its recipe needs
and by whether none of them is produced. A need may end for another reason than that nothing
produces it, so what the score says of the recipe is yet to be shown of the expansions below the
branch. Nothing above a node is a base material, because something was made there
(`known_of_mem_above`). With uniform recipes a base material has therefore another identifier than
all materials above it: it is no cycle, and it ends as a base material even where the depth is
used up (`stop_eq_base_iff`). So the score of a branch counts the expansions below it and tells
whether all of them end as base materials (`score_of_nodeAt`).
-/

namespace RecipePlanner.Expansion

open Producers (Known Uniform ofList)

section Nodes

variable {rs : List Recipe} {raw : String} {limits : Limits} {above : List Material}
  {e : Expansion}

/-- A node with a branch stands for a material that is produced. -/
theorem isBase_eq_false_of_mem_branches (h : NodeAt (ofId (ofList rs) raw limits) above e)
    {b : Branch} (hb : b ∈ e.branches) : (ofList rs).isBase e.material = false := by
  obtain ⟨-, hchoice, -⟩ := branch_of_nodeAt h hb
  have hrange := Producers.inRange_ofList rs
  rw [Bool.eq_false_iff, ne_eq, ← Producers.keyed_eq_nil_iff hrange]
  exact List.ne_nil_of_mem hchoice

/-- The materials above a node are known ones that are produced. -/
theorem known_of_mem_above (h : NodeAt (ofId (ofList rs) raw limits) above e) :
    ∀ x ∈ above, Known rs raw x ∧ (ofList rs).isBase x = false := by
  induction h with
  | root => exact List.forall_mem_nil _
  | need hparent hb _ ih =>
    rw [List.forall_mem_cons]
    exact ⟨⟨known_of_nodeAt hparent, isBase_eq_false_of_mem_branches hparent hb⟩, ih⟩

/-- A base material has another identifier than all materials above it. -/
theorem not_mem_above_of_isBase (hu : Uniform rs)
    (h : NodeAt (ofId (ofList rs) raw limits) above e)
    (hbase : (ofList rs).isBase e.material = true) : e.material.id ∉ above.map Material.id := by
  intro hmem
  obtain ⟨x, hx, hid⟩ := List.mem_map.1 hmem
  obtain ⟨hknown, hproduced⟩ := known_of_mem_above h x hx
  -- The two materials have one identifier, so one form, and are base materials together.
  have hform := Producers.sameForm_of_known hu hknown (known_of_nodeAt h) hid
  rw [Producers.isBase_congr (ofList rs) hform, hbase] at hproduced
  cases hproduced

/-- A node ends as a base material exactly if no recipe yields its material, whatever stands above
it and however deep it stands. -/
theorem stop_eq_base_iff (hu : Uniform rs) (h : NodeAt (ofId (ofList rs) raw limits) above e) :
    e.stop = some .base ↔ (ofList rs).isBase e.material = true := by
  constructor
  · exact (isBase_material_of_nodeAt (Producers.inRange_ofList rs) h).1
  · intro hbase
    have hgrown := h
    rw [ofId, ofMaterial_eq_growTo] at hgrown
    obtain ⟨k, -, he⟩ := eq_growTo_of_nodeAt hgrown
    have hnew := not_mem_above_of_isBase hu h hbase
    rw [he, stop_growTo (Producers.inRange_ofList rs), List.append_nil, if_neg hnew, if_pos hbase]

end Nodes

/-- With uniform recipes scores tell the truth: the score of any branch of any node counts the
expansions below the branch, and it says that only base materials are needed exactly if all of
them end as base materials. -/
theorem score_of_nodeAt {rs : List Recipe} (hu : Uniform rs) {raw : String} {limits : Limits}
    {above : List Material} {e : Expansion} (h : NodeAt (ofId (ofList rs) raw limits) above e)
    {b : Branch} (hb : b ∈ e.branches) :
    b.score.needs = b.needs.length ∧
      (b.score.allBase = true ↔ ∀ need ∈ b.needs, need.stop = some .base) := by
  obtain ⟨-, -, hneeds⟩ := branch_of_nodeAt h hb
  rw [score_of_mem_branches h hb, scoreOf, ← hneeds]
  refine ⟨List.length_map _, ?_⟩
  rw [List.all_map, List.all_eq_true]
  refine forall₂_congr fun need hneed => ?_
  exact (stop_eq_base_iff hu (h.need hb hneed)).symm

/-- Below the ingot of a pickaxe the depth is used up. Smelting it takes ore, which is a base
material there too; making it of blocks takes what is cut off. -/
theorem score_of_nodeAt_ingot :
    let root := ofId (ofList Samples.iron) "minecraft:iron_pickaxe" ⟨1, 5⟩
    Uniform Samples.iron ∧ ∃ above e, NodeAt root above e ∧ ∃ b ∈ e.branches, ∃ c ∈ e.branches,
      (b.key = "smelting" ∧ b.score = ⟨1, true⟩ ∧
        b.needs.length = 1 ∧ ∀ need ∈ b.needs, need.stop = some .base) ∧
      c.key = "crafting_shapeless" ∧ c.score = ⟨1, false⟩ ∧
        c.needs.length = 1 ∧ ¬ ∀ need ∈ c.needs, need.stop = some .base := by
  intro root
  have hu : Uniform Samples.iron := by decide +kernel
  obtain ⟨a, ha, e, he, b, hb, c, hc, hbkey, hbscore, hckey, hcscore⟩ :
      ∃ a ∈ root.branches, ∃ e ∈ a.needs, ∃ b ∈ e.branches, ∃ c ∈ e.branches,
        b.key = "smelting" ∧ b.score = ⟨1, true⟩ ∧
        c.key = "crafting_shapeless" ∧ c.score = ⟨1, false⟩ := by
    decide +kernel
  have hnode : NodeAt root [root.material] e := .need .root ha he
  obtain ⟨hbneeds, hbbase⟩ := score_of_nodeAt hu hnode hb
  obtain ⟨hcneeds, hcbase⟩ := score_of_nodeAt hu hnode hc
  rw [hbscore] at hbneeds hbbase
  rw [hcscore] at hcneeds hcbase
  refine ⟨hu, _, e, hnode, b, hb, c, hc, ⟨hbkey, hbscore, hbneeds.symm, hbbase.1 rfl⟩,
    hckey, hcscore, hcneeds.symm, ?_⟩
  intro hall
  cases hcbase.2 hall

end RecipePlanner.Expansion

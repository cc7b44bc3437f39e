import RecipePlanner.Proofs.Expansion.Pruning
import RecipePlanner.Proofs.Expansion.Search
import RecipePlanner.Proofs.Expansion.Stops
import RecipePlanner.Proofs.Producers.Forms

/-!
# Base materials in an expansion

An expansion shows that an item is a base material if the first node for it that is resolved ends as
one. With uniform recipes it does not matter which node comes first: one node for the item that ends
as a base material is enough (`showsBase_iff`), because all nodes for it have materials of one form,
and a base material by one of them is one by the others. Limits only prune, and a base material that is
left by the pruning was one before, so an expansion within wider limits shows at least the base
materials that one within tighter limits does (`showsBase_widen`).
-/

namespace RecipePlanner.Expansion

open Producers (Known Uniform ofList)

/-- Whether the first resolved node for an item ends as a base material. -/
def showsBase (e : Expansion) (id : String) : Bool :=
  ((e.findResolved? id).map isBase).getD false

/-! ## What the nodes say of their materials -/

theorem isBase_of_stop_growTo {p : Producers} (hp : p.InRange) {width n : Nat}
    {lineage : List String} {m : Material} :
    ((growTo p width n lineage m).stop = some .base → p.isBase m = true) ∧
      ((growTo p width n lineage m).stop = none → p.isBase m = false) := by
  rw [stop_growTo hp]
  cases p.isBase m with
  | true =>
    refine ⟨fun _ => rfl, fun h => ?_⟩
    split at h <;> cases h
  | false =>
    refine ⟨fun h => ?_, fun _ => rfl⟩
    split at h
    · cases h
    · split at h
      · next hfalse => exact hfalse
      · split at h <;> cases h

/-- A node that ends as a base material has no recipes, and one that does not end has some. -/
theorem isBase_material_of_nodeAt {p : Producers} (hp : p.InRange) {m : Material}
    {limits : Limits} {above : List Material} {e : Expansion}
    (h : NodeAt (ofMaterial p m limits) above e) :
    (e.stop = some .base → p.isBase e.material = true) ∧
      (e.stop = none → p.isBase e.material = false) := by
  rw [ofMaterial_eq_growTo] at h
  obtain ⟨k, -, he⟩ := eq_growTo_of_nodeAt h
  rw [he, material_growTo]
  exact isBase_of_stop_growTo hp

/-- The material of a node is the one that was looked up, or a recipe mentions it. -/
theorem known_of_nodeAt {rs : List Recipe} {raw : String} {limits : Limits}
    {above : List Material} {e : Expansion} (h : NodeAt (ofId (ofList rs) raw limits) above e) :
    Known rs raw e.material := by
  cases h with
  | root =>
    apply Or.inl
    rw [ofId, ofMaterial_eq_growTo, material_growTo]
  | @need above parent _ b hparent hb hc =>
    obtain ⟨-, hchoice, hneeds⟩ := branch_of_nodeAt hparent hb
    have hneed : e.material ∈ b.recipe.distinctNeeds := by
      rw [← hneeds]
      exact List.mem_map_of_mem hc
    -- The recipe of a branch is a productive one, so what it needs is mentioned.
    have hrecipe := Producers.mem_recipes_of_mem_producing (Producers.mem_of_mem_keyed hchoice).2
    obtain ⟨hmem, hproductive⟩ := Producers.mem_recipes_ofList_iff.1 hrecipe
    obtain ⟨s, hs, hs'⟩ := List.mem_map.1 ((firstSeen_sublist _ _).subset hneed)
    apply Or.inr
    rw [← hs']
    exact Producers.mem_mentions_iff.2
      ⟨b.recipe, hmem, hproductive, s, List.mem_append_left _ hs, rfl⟩

section Shows

variable {rs : List Recipe} (hu : Uniform rs) {raw : String} {limits : Limits} {id : String}

include hu

/-- Nodes for one item agree on whether it is a base material. -/
theorem isBase_eq_of_nodeAt {above above' : List Material} {x y : Expansion}
    (hx : NodeAt (ofId (ofList rs) raw limits) above x)
    (hy : NodeAt (ofId (ofList rs) raw limits) above' y) (hid : x.material.id = y.material.id) :
    (ofList rs).isBase x.material = (ofList rs).isBase y.material := by
  have hform := Producers.sameForm_of_known hu (known_of_nodeAt hx) (known_of_nodeAt hy) hid
  exact Producers.isBase_congr (ofList rs) hform

/-- An expansion shows a base material exactly if some node for it ends as one. -/
theorem showsBase_iff :
    (ofId (ofList rs) raw limits).showsBase id = true ↔
      ∃ above x, NodeAt (ofId (ofList rs) raw limits) above x ∧ x.material.id = id ∧
        x.stop = some .base := by
  rw [showsBase]
  constructor
  · intro h
    cases hfound : (ofId (ofList rs) raw limits).findResolved? id with
    | none =>
      rw [hfound] at h
      cases h
    | some x =>
      obtain ⟨hid, -, above, hx⟩ := nodeAt_of_findResolved? hfound
      rw [hfound, Option.map_some, Option.getD_some, isBase, beq_iff_eq] at h
      exact ⟨above, x, hx, hid, h⟩
  · rintro ⟨above, x, hx, hid, hbase⟩
    obtain ⟨y, hfound⟩ := exists_findResolved?_of_nodeAt hx hid (Or.inr hbase)
    obtain ⟨hyid, hresolved, above', hy⟩ := nodeAt_of_findResolved? hfound
    rw [hfound, Option.map_some, Option.getD_some, isBase, beq_iff_eq]
    -- The node that is found first could only be another one that does not end.
    rcases hresolved with hnone | hend
    · have hagree := isBase_eq_of_nodeAt hu hx hy (hid.trans hyid.symm)
      have hrange := Producers.inRange_ofList rs
      rw [(isBase_material_of_nodeAt hrange hx).1 hbase,
        (isBase_material_of_nodeAt hrange hy).2 hnone] at hagree
      cases hagree
    · exact hend

end Shows

/-! ## Nodes left by pruning -/

theorem material_narrow (width : Nat) (e : Expansion) : (narrow width e).material = e.material := by
  cases e with
  | node m bs more stop =>
    rw [narrow_node]
    rfl

theorem stop_narrow (width : Nat) (e : Expansion) : (narrow width e).stop = e.stop := by
  cases e with
  | node m bs more stop =>
    rw [narrow_node]
    rfl

theorem material_cutAt (level : Nat) (e : Expansion) : (cutAt level e).material = e.material := by
  cases e with
  | node m bs more stop =>
    cases level with
    | zero =>
      rw [cutAt]
      split <;> rfl
    | succ level => rfl

/-- A node that ends as a base material behind a cut did so before. -/
theorem stop_of_stop_cutAt {level : Nat} {e : Expansion} (h : (cutAt level e).stop = some .base) :
    e.stop = some .base := by
  cases e with
  | node m bs more stop =>
    cases level with
    | zero =>
      rw [cutAt] at h
      split at h
      · cases h
      · exact h
    | succ level => exact h

/-- The nodes of a narrowed expansion are the narrowed nodes that were not left out. -/
theorem nodeAt_of_nodeAt_narrow {width : Nat} {e x : Expansion} {above : List Material}
    (h : NodeAt (narrow width e) above x) : ∃ y, NodeAt e above y ∧ x = narrow width y := by
  induction h with
  | root => exact ⟨e, .root, rfl⟩
  | @need above parent child b _ hb hc ih =>
    obtain ⟨y, hy, rfl⟩ := ih
    rw [material_narrow]
    cases y with
    | node m bs more stop =>
      rw [narrow_node] at hb
      obtain ⟨⟨choice, score, needs⟩, hb', rfl⟩ := List.mem_map.1 hb
      obtain ⟨need, hneed, rfl⟩ := List.mem_map.1 hc
      exact ⟨need, hy.need (List.mem_of_mem_take hb') hneed, rfl⟩

/-- The nodes of an expansion that was cut off are nodes of it, those down to the cut with what is
below them cut off. -/
theorem nodeAt_of_nodeAt_cutAt {level : Nat} {e x : Expansion} {above : List Material}
    (h : NodeAt (cutAt level e) above x) :
    ∃ y, NodeAt e above y ∧ (x = y ∨ ∃ l, x = cutAt l y) := by
  induction h with
  | root => exact ⟨e, .root, Or.inr ⟨level, rfl⟩⟩
  | @need above parent child b _ hb hc ih =>
    obtain ⟨y, hy, rfl | ⟨l, rfl⟩⟩ := ih
    · exact ⟨child, hy.need hb hc, Or.inl rfl⟩
    · rw [material_cutAt]
      cases y with
      | node m bs more stop =>
        cases l with
        | zero =>
          -- On the level of the cut only a node that ends anyway keeps what is below it.
          rw [cutAt] at hb
          split at hb
          · cases hb
          · exact ⟨child, hy.need hb hc, Or.inl rfl⟩
        | succ l =>
          obtain ⟨⟨choice, score, needs⟩, hb', rfl⟩ := List.mem_map.1 hb
          obtain ⟨need, hneed, rfl⟩ := List.mem_map.1 hc
          exact ⟨need, hy.need hb' hneed, Or.inr ⟨l, rfl⟩⟩

/-! ## Wider limits -/

/-- A node that ends as a base material within some limits ends as one within wider limits. -/
theorem exists_base_of_widen {rs : List Recipe} {m : Material} {limits wider : Limits}
    (hd : limits.depth ≤ wider.depth) (hw : limits.width ≤ wider.width) {above : List Material}
    {x : Expansion} (h : NodeAt (ofMaterial (ofList rs) m limits) above x)
    (hbase : x.stop = some .base) :
    ∃ y, NodeAt (ofMaterial (ofList rs) m wider) above y ∧ y.material = x.material ∧
      y.stop = some .base := by
  -- The expansion is the one within the wider limits, narrowed and cut off.
  rw [ofMaterial_eq_growTo, ← cutAt_growTo (Producers.inRange_ofList rs) _ (Nat.succ_le_succ hd),
    ← narrow_growTo _ hw, ← ofMaterial_eq_growTo] at h
  obtain ⟨y, hy, hxy⟩ := nodeAt_of_nodeAt_cutAt h
  obtain ⟨z, hz, rfl⟩ := nodeAt_of_nodeAt_narrow hy
  refine ⟨z, hz, ?_, ?_⟩
  · rcases hxy with rfl | ⟨l, rfl⟩
    · rw [material_narrow]
    · rw [material_cutAt, material_narrow]
  · rw [← stop_narrow limits.width]
    rcases hxy with rfl | ⟨l, rfl⟩
    · exact hbase
    · exact stop_of_stop_cutAt hbase

/-- Within wider limits an expansion shows at least the same base materials. -/
theorem showsBase_widen {rs : List Recipe} (hu : Uniform rs) {raw id : String}
    {limits wider : Limits} (hd : limits.depth ≤ wider.depth) (hw : limits.width ≤ wider.width)
    (h : (ofId (ofList rs) raw limits).showsBase id = true) :
    (ofId (ofList rs) raw wider).showsBase id = true := by
  obtain ⟨above, x, hx, hid, hbase⟩ := (showsBase_iff hu).1 h
  obtain ⟨y, hy, hmaterial, hend⟩ := exists_base_of_widen hd hw hx hbase
  exact (showsBase_iff hu).2 ⟨above, y, hy, by rw [hmaterial, hid], hend⟩

end RecipePlanner.Expansion

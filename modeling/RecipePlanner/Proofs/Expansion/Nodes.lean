import RecipePlanner.Expansion
import RecipePlanner.Proofs.Producers.Positions

/-!
# The nodes of an expansion

`NodeAt e above node` says that `node` stands in `e` below the materials `above`, nearest first. An
expansion is grown by one rule at every level: `growTo p width n` is the node for a material with
`n` levels left, cut off if there are none. It ends or lists alternatives (`growTo_cases`). A node
of a grown expansion is grown by the same rule, with one level less for each material above it and
exactly the identifiers of these materials as its lineage (`eq_growTo_of_nodeAt`), so whatever is
said of `growTo` is said of every node.
-/

namespace RecipePlanner.Expansion

/-! ## Levels left -/

/-- The node for a material with `n` levels left, itself included. -/
def growTo (p : Producers) (width : Nat) :
    (n : Nat) → (lineage : List String) → Material → Expansion
  | 0 => cutOff p
  | n + 1 => grow p width n

theorem growTo_succ (p : Producers) (width n : Nat) (lineage : List String) (m : Material) :
    growTo p width (n + 1) lineage m = nodeWith p width lineage m (growTo p width n) := by
  cases n <;> rfl

theorem ofMaterial_eq_growTo (p : Producers) (m : Material) (limits : Limits) :
    ofMaterial p m limits = growTo p limits.width (limits.depth + 1) [] m := rfl

/-! ## One node -/

/-- A way to make a material, with its needs expanded. -/
def build (expand : Material → Expansion) : Alternative → Branch
  | (score, choice) => .mk choice score (choice.recipe.distinctNeeds.map expand)

section NodeWith

variable {p : Producers} (width : Nat) {lineage : List String} {m : Material}
  (expand : List String → Material → Expansion)

theorem nodeWith_of_mem (h : m.id ∈ lineage) :
    nodeWith p width lineage m expand = terminal m .cycle :=
  if_pos h

theorem nodeWith_of_base (h : m.id ∉ lineage) (halt : alternatives p m = []) :
    nodeWith p width lineage m expand = terminal m .base := by
  rw [nodeWith, if_neg h, halt]

/-- Where a material is new to its lineage and something produces it, the node lists the best
alternatives and counts the others. -/
theorem nodeWith_of_alternatives (h : m.id ∉ lineage) (halt : alternatives p m ≠ []) :
    nodeWith p width lineage m expand =
      node m (((alternatives p m).take width).map (build (expand (m.id :: lineage))))
        ((alternatives p m).length - width) none := by
  obtain ⟨a, as, has⟩ := List.exists_cons_of_ne_nil halt
  rw [nodeWith, if_neg h, has]
  rfl

end NodeWith

/-- The node for a material is a cycle, a base material, or it lists the best alternatives and
counts the others. -/
theorem nodeWith_cases (p : Producers) (width : Nat) (lineage : List String) (m : Material)
    (expand : List String → Material → Expansion) :
    (m.id ∈ lineage ∧ nodeWith p width lineage m expand = terminal m .cycle) ∨
    (m.id ∉ lineage ∧ alternatives p m = [] ∧
      nodeWith p width lineage m expand = terminal m .base) ∨
    (m.id ∉ lineage ∧ alternatives p m ≠ [] ∧
      nodeWith p width lineage m expand =
        node m (((alternatives p m).take width).map (build (expand (m.id :: lineage))))
          ((alternatives p m).length - width) none) := by
  by_cases h : m.id ∈ lineage
  · exact Or.inl ⟨h, nodeWith_of_mem width expand h⟩
  · by_cases halt : alternatives p m = []
    · exact Or.inr (Or.inl ⟨h, halt, nodeWith_of_base width expand h halt⟩)
    · exact Or.inr (Or.inr ⟨h, halt, nodeWith_of_alternatives width expand h halt⟩)

/-- The node for a material where the depth is used up is a cycle, a base material or cut off. -/
theorem cutOff_cases (p : Producers) (lineage : List String) (m : Material) :
    (m.id ∈ lineage ∧ cutOff p lineage m = terminal m .cycle) ∨
    (m.id ∉ lineage ∧ p.isBase m = true ∧ cutOff p lineage m = terminal m .base) ∨
    (m.id ∉ lineage ∧ p.isBase m = false ∧ cutOff p lineage m = terminal m .depthLimit) := by
  by_cases h : m.id ∈ lineage
  · exact Or.inl ⟨h, if_pos h⟩
  · rw [cutOff, if_neg h]
    cases p.isBase m with
    | true => exact Or.inr (Or.inl ⟨h, rfl, rfl⟩)
    | false => exact Or.inr (Or.inr ⟨h, rfl, rfl⟩)

theorem place_perm (a : Alternative) (bs : List Alternative) : (place a bs).Perm (a :: bs) := by
  induction bs with
  | nil => exact List.Perm.refl [a]
  | cons b bs ih =>
    rw [place]
    split
    · exact List.Perm.refl (a :: b :: bs)
    · exact (ih.cons b).trans (List.Perm.swap a b bs)

/-- Ranking neither adds nor drops an alternative. -/
theorem rank_perm (as : List Alternative) : (rank as).Perm as := by
  induction as with
  | nil => exact List.Perm.refl []
  | cons a as ih =>
    rw [rank, List.foldr_cons, ← rank]
    exact (place_perm a (rank as)).trans (ih.cons a)

/-- A material has no alternatives exactly if no recipe yields it. -/
theorem alternatives_eq_nil_iff (hp : p.InRange) (m : Material) :
    alternatives p m = [] ↔ p.isBase m = true := by
  rw [← Producers.keyed_eq_nil_iff hp, ← List.length_eq_zero_iff, alternatives,
    (rank_perm _).length_eq, List.length_map, List.length_eq_zero_iff]

/-- A grown node ends, or it has levels left and its material is new to its lineage and has
alternatives: then it lists the best of them, their needs grown with one level less, and counts the
others. -/
theorem growTo_cases (p : Producers) (width n : Nat) (lineage : List String) (m : Material) :
    (∃ s, growTo p width n lineage m = terminal m s) ∨
    ∃ k, n = k + 1 ∧ m.id ∉ lineage ∧ alternatives p m ≠ [] ∧
      growTo p width n lineage m =
        node m (((alternatives p m).take width).map (build (growTo p width k (m.id :: lineage))))
          ((alternatives p m).length - width) none := by
  cases n with
  | zero =>
    apply Or.inl
    rcases cutOff_cases p lineage m with ⟨-, hn⟩ | ⟨-, -, hn⟩ | ⟨-, -, hn⟩
    · exact ⟨.cycle, hn⟩
    · exact ⟨.base, hn⟩
    · exact ⟨.depthLimit, hn⟩
  | succ k =>
    rw [growTo_succ]
    rcases nodeWith_cases p width lineage m (growTo p width k) with
      ⟨-, hn⟩ | ⟨-, -, hn⟩ | ⟨hnew, halt, hn⟩
    · exact Or.inl ⟨.cycle, hn⟩
    · exact Or.inl ⟨.base, hn⟩
    · exact Or.inr ⟨k, rfl, hnew, halt, hn⟩

theorem material_growTo (p : Producers) (width n : Nat) (lineage : List String) (m : Material) :
    (growTo p width n lineage m).material = m := by
  obtain ⟨s, hn⟩ | ⟨k, -, -, -, hn⟩ := growTo_cases p width n lineage m
  · rw [hn]
    rfl
  · rw [hn]
    rfl

/-- A branch of a node with levels left, whose material is new to its lineage, is built of an
alternative for that material with its score, and what its recipe needs is grown with one level
less. -/
theorem eq_build_of_mem_branches {p : Producers} {width n : Nat} {lineage : List String}
    {m : Material} {b : Branch} (hb : b ∈ (growTo p width n lineage m).branches) :
    ∃ k, n = k + 1 ∧ m.id ∉ lineage ∧ ∃ choice ∈ p.keyed m,
      b = build (growTo p width k (m.id :: lineage)) (scoreOf p choice.recipe, choice) := by
  obtain ⟨s, hn⟩ | ⟨k, hk, hnew, -, hn⟩ := growTo_cases p width n lineage m
  · rw [hn] at hb
    cases hb
  · rw [hn] at hb
    obtain ⟨a, ha, rfl⟩ := List.mem_map.1 hb
    have hranked := (rank_perm _).mem_iff.1 (List.mem_of_mem_take ha)
    obtain ⟨choice, hchoice, rfl⟩ := List.mem_map.1 hranked
    exact ⟨k, hk, hnew, choice, hchoice, rfl⟩

/-- A node with a branch has levels left and its material is new to its lineage. The branch stands
for an alternative for the material, and what its recipe needs is grown with one level less. -/
theorem growTo_of_mem_branches {p : Producers} {width n : Nat} {lineage : List String}
    {m : Material} {b : Branch} (hb : b ∈ (growTo p width n lineage m).branches) :
    ∃ k, n = k + 1 ∧ m.id ∉ lineage ∧ KeyedRecipe.mk b.key b.recipe ∈ p.keyed m ∧
      b.needs = b.recipe.distinctNeeds.map (growTo p width k (m.id :: lineage)) := by
  obtain ⟨k, hk, hnew, choice, hchoice, rfl⟩ := eq_build_of_mem_branches hb
  exact ⟨k, hk, hnew, hchoice, rfl⟩

/-- A material that is in its lineage already is a cycle, however many levels are left. -/
theorem growTo_of_mem {p : Producers} {width : Nat} {lineage : List String} {m : Material}
    (h : m.id ∈ lineage) (n : Nat) : growTo p width n lineage m = terminal m .cycle := by
  cases n with
  | zero => exact if_pos h
  | succ n => rw [growTo_succ, nodeWith_of_mem width (growTo p width n) h]

/-! ## All nodes -/

/-- The node stands in the expansion below the materials `above`, nearest first; the root stands
below none. -/
inductive NodeAt (root : Expansion) : (above : List Material) → Expansion → Prop where
  | root : NodeAt root [] root
  | need {above : List Material} {parent child : Expansion} {b : Branch}
      (h : NodeAt root above parent) (hb : b ∈ parent.branches) (hc : child ∈ b.needs) :
      NodeAt root (parent.material :: above) child

/-- A node of a grown expansion is grown by the same rule, with one level less for each material
above it and their identifiers added to the lineage. -/
theorem eq_growTo_of_nodeAt {p : Producers} {width n : Nat} {lineage : List String}
    {m : Material} {above : List Material} {e : Expansion}
    (h : NodeAt (growTo p width n lineage m) above e) :
    ∃ k, above.length + k = n ∧
      e = growTo p width k (above.map Material.id ++ lineage) e.material := by
  induction h with
  | root => exact ⟨n, Nat.zero_add n, by rw [material_growTo]; rfl⟩
  | @need above parent child b _ hb hc ih =>
    obtain ⟨l, hl, hparent⟩ := ih
    rw [hparent] at hb
    obtain ⟨k, rfl, -, -, hneeds⟩ := growTo_of_mem_branches hb
    rw [hneeds] at hc
    obtain ⟨need, -, rfl⟩ := List.mem_map.1 hc
    refine ⟨k, ?_, ?_⟩
    · rw [List.length_cons]
      omega
    · rw [material_growTo]
      rfl

/-- The score of a branch is that of its recipe. -/
theorem score_of_mem_branches {p : Producers} {m : Material} {limits : Limits}
    {above : List Material} {e : Expansion} {b : Branch}
    (h : NodeAt (ofMaterial p m limits) above e) (hb : b ∈ e.branches) :
    b.score = scoreOf p b.recipe := by
  rw [ofMaterial_eq_growTo] at h
  obtain ⟨n, -, he⟩ := eq_growTo_of_nodeAt h
  rw [he] at hb
  obtain ⟨k, -, -, choice, -, rfl⟩ := eq_build_of_mem_branches hb
  rfl

/-- A node with a branch has an identifier that does not occur above it. The branch stands for an
alternative for its material, and below it there is a node for each material that its recipe
needs. -/
theorem branch_of_nodeAt {p : Producers} {m : Material} {limits : Limits} {above : List Material}
    {e : Expansion} {b : Branch} (h : NodeAt (ofMaterial p m limits) above e)
    (hb : b ∈ e.branches) :
    e.material.id ∉ above.map Material.id ∧
      KeyedRecipe.mk b.key b.recipe ∈ p.keyed e.material ∧
      b.needs.map material = b.recipe.distinctNeeds := by
  rw [ofMaterial_eq_growTo] at h
  obtain ⟨n, -, he⟩ := eq_growTo_of_nodeAt h
  rw [he] at hb
  obtain ⟨k, -, hnew, hchoice, hneeds⟩ := growTo_of_mem_branches hb
  rw [List.append_nil] at hnew
  refine ⟨hnew, hchoice, ?_⟩
  rw [hneeds, List.map_map]
  exact List.map_id'' (material_growTo p limits.width k _) _

end RecipePlanner.Expansion

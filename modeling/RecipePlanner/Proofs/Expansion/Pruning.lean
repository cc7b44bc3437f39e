import RecipePlanner.Proofs.Expansion.Nodes
import RecipePlanner.Samples

/-!
# Limits only prune

An expansion within tighter limits is a pruned expansion within looser ones
(`ofMaterial_eq_cutAt_narrow`). Pruning is two operations on finished trees that know nothing of
recipes: `narrow` keeps the first branches of every node and counts the others, and `cutAt` ends
every node of one level that has not stopped. Each undoes one of the two limits: narrowing the width
(`narrow_growTo`) and cutting off levels (`cutAt_growTo`). For the second, a node on the level of
the cut stops for the same reason before and after, because having no alternatives and being a base
material are the same.
-/

namespace RecipePlanner

/-- A branch with the expansions of its needs changed. -/
def Branch.mapNeeds (f : Expansion → Expansion) : Branch → Branch
  | mk choice score needs => mk choice score (needs.map f)

namespace Expansion

mutual

/-- The expansion with only the first `width` branches of every node; the others are counted. -/
def narrow (width : Nat) : Expansion → Expansion
  | node m bs more stop =>
    node m ((narrowBranches width bs).take width) (more + (bs.length - width)) stop

/-- Some branches with only the first `width` branches of every node below them. -/
def narrowBranches (width : Nat) : List Branch → List Branch
  | [] => []
  | .mk choice score needs :: bs =>
    .mk choice score (narrowAll width needs) :: narrowBranches width bs

/-- Some expansions with only the first `width` branches of every node. -/
def narrowAll (width : Nat) : List Expansion → List Expansion
  | [] => []
  | e :: es => narrow width e :: narrowAll width es

end

/-- The expansion with every node `level` levels below the root ended by the depth limit, unless it
stops anyway. -/
def cutAt : (level : Nat) → Expansion → Expansion
  | 0, node m bs more stop => if stop = none then terminal m .depthLimit else node m bs more stop
  | level + 1, node m bs more stop => node m (bs.map (Branch.mapNeeds (cutAt level))) more stop

theorem narrowAll_eq_map (width : Nat) (es : List Expansion) :
    narrowAll width es = es.map (narrow width) := by
  induction es with
  | nil => rfl
  | cons e es ih => rw [narrowAll, ih, List.map_cons]

theorem narrowBranches_eq_map (width : Nat) (bs : List Branch) :
    narrowBranches width bs = bs.map (Branch.mapNeeds (narrow width)) := by
  induction bs with
  | nil => rfl
  | cons b bs ih =>
    obtain ⟨choice, score, needs⟩ := b
    rw [narrowBranches, ih, narrowAll_eq_map, List.map_cons, Branch.mapNeeds]

theorem narrow_node (width : Nat) (m : Material) (bs : List Branch) (more : Nat)
    (stop : Option Stop) :
    narrow width (node m bs more stop) =
      node m ((bs.take width).map (Branch.mapNeeds (narrow width))) (more + (bs.length - width))
        stop := by
  rw [narrow, narrowBranches_eq_map, List.map_take]

theorem narrow_terminal (width : Nat) (m : Material) (s : Stop) :
    narrow width (terminal m s) = terminal m s := by
  rw [terminal, narrow_node, List.take_nil, List.length_nil, Nat.zero_sub]
  rfl

theorem cutAt_terminal (level : Nat) (m : Material) (s : Stop) :
    cutAt level (terminal m s) = terminal m s := by
  cases level <;> rfl

/-- Changing the expanded needs of a branch is expanding them in another way. -/
theorem mapNeeds_build {f g : Material → Expansion} {change : Expansion → Expansion}
    (hchange : ∀ m, change (f m) = g m) (a : Alternative) :
    (build f a).mapNeeds change = build g a := by
  obtain ⟨score, choice⟩ := a
  rw [build, build, Branch.mapNeeds, List.map_map]
  exact congrArg _ (List.map_congr_left fun m _ => hchange m)

/-! ## Narrowing -/

/-- Narrowing a node is listing fewer alternatives and narrowing what they need. -/
theorem narrow_nodeWith {p : Producers} {width wider : Nat} (hw : width ≤ wider)
    {lineage : List String} {m : Material} {expand expand' : List String → Material → Expansion}
    (hexpand : ∀ l n, narrow width (expand l n) = expand' l n) :
    narrow width (nodeWith p wider lineage m expand) = nodeWith p width lineage m expand' := by
  by_cases h : m.id ∈ lineage
  · rw [nodeWith_of_mem wider expand h, nodeWith_of_mem width expand' h, narrow_terminal]
  · by_cases halt : alternatives p m = []
    · rw [nodeWith_of_base wider expand h halt, nodeWith_of_base width expand' h halt,
        narrow_terminal]
    · rw [nodeWith_of_alternatives wider expand h halt,
        nodeWith_of_alternatives width expand' h halt, narrow_node]
      -- The first few of the first many are the first few, and those left out twice add up.
      have hlisted : ((((alternatives p m).take wider).map (build (expand (m.id :: lineage)))).take
          width).map (Branch.mapNeeds (narrow width)) =
          ((alternatives p m).take width).map (build (expand' (m.id :: lineage))) := by
        rw [← List.map_take, List.take_take, Nat.min_eq_left hw, List.map_map]
        exact List.map_congr_left fun a _ => mapNeeds_build (hexpand (m.id :: lineage)) a
      have hcounted : (alternatives p m).length - wider +
          ((((alternatives p m).take wider).map (build (expand (m.id :: lineage)))).length -
            width) = (alternatives p m).length - width := by
        rw [List.length_map, List.length_take]
        omega
      rw [hlisted, hcounted]

/-- Narrowing what was grown wider gives what is grown narrow. -/
theorem narrow_growTo (p : Producers) {width wider : Nat} (hw : width ≤ wider) (n : Nat)
    (lineage : List String) (m : Material) :
    narrow width (growTo p wider n lineage m) = growTo p width n lineage m := by
  induction n generalizing lineage m with
  | zero =>
    rw [growTo, growTo]
    rcases cutOff_cases p lineage m with ⟨-, hn⟩ | ⟨-, -, hn⟩ | ⟨-, -, hn⟩
    · rw [hn, narrow_terminal]
    · rw [hn, narrow_terminal]
    · rw [hn, narrow_terminal]
  | succ n ih =>
    rw [growTo_succ, growTo_succ]
    exact narrow_nodeWith hw ih

/-! ## Cutting off levels -/

theorem cutAt_nodeWith {p : Producers} {width level : Nat} {lineage : List String}
    {m : Material} {expand expand' : List String → Material → Expansion}
    (hexpand : ∀ l n, cutAt level (expand l n) = expand' l n) :
    cutAt (level + 1) (nodeWith p width lineage m expand) =
      nodeWith p width lineage m expand' := by
  by_cases h : m.id ∈ lineage
  · rw [nodeWith_of_mem width expand h, nodeWith_of_mem width expand' h, cutAt_terminal]
  · by_cases halt : alternatives p m = []
    · rw [nodeWith_of_base width expand h halt, nodeWith_of_base width expand' h halt,
        cutAt_terminal]
    · rw [nodeWith_of_alternatives width expand h halt,
        nodeWith_of_alternatives width expand' h halt, cutAt, List.map_map]
      refine congrArg (fun bs => node m bs _ none) ?_
      exact List.map_congr_left fun a _ => mapNeeds_build (hexpand (m.id :: lineage)) a

/-- On the level of the cut, a node that was grown further is cut off for the same reason as one
whose depth was used up there. -/
theorem cutAt_zero_growTo {p : Producers} (hp : p.InRange) (width n : Nat)
    (lineage : List String) (m : Material) :
    cutAt 0 (growTo p width n lineage m) = cutOff p lineage m := by
  cases n with
  | zero =>
    rw [growTo]
    rcases cutOff_cases p lineage m with ⟨-, hn⟩ | ⟨-, -, hn⟩ | ⟨-, -, hn⟩
    · rw [hn, cutAt_terminal]
    · rw [hn, cutAt_terminal]
    · rw [hn, cutAt_terminal]
  | succ n =>
    rw [growTo_succ]
    rcases cutOff_cases p lineage m with ⟨h, hn⟩ | ⟨h, hbase, hn⟩ | ⟨h, hbase, hn⟩
    · rw [hn, nodeWith_of_mem _ _ h, cutAt_terminal]
    · rw [hn, nodeWith_of_base _ _ h ((alternatives_eq_nil_iff hp m).2 hbase), cutAt_terminal]
    · -- What is cut off without a look at its alternatives has some.
      have halt : alternatives p m ≠ [] := by
        rw [Ne, alternatives_eq_nil_iff hp m, hbase]
        exact Bool.false_ne_true
      rw [hn, nodeWith_of_alternatives _ _ h halt]
      rfl

/-- Cutting off levels of what was grown deeper gives what is grown with fewer levels. -/
theorem cutAt_growTo {p : Producers} (hp : p.InRange) (width : Nat) {level n : Nat}
    (hn : level ≤ n) (lineage : List String) (m : Material) :
    cutAt level (growTo p width n lineage m) = growTo p width level lineage m := by
  induction level generalizing n lineage m with
  | zero => exact cutAt_zero_growTo hp width n lineage m
  | succ level ih =>
    obtain ⟨n, rfl⟩ : ∃ k, n = k + 1 := ⟨n - 1, by omega⟩
    rw [growTo_succ, growTo_succ]
    exact cutAt_nodeWith (ih (Nat.le_of_succ_le_succ hn))

/-! ## Both limits -/

/-- An expansion within tighter limits is one within looser limits with only the first branches of
every node, the others counted, and with the nodes on the first level too deep ended. -/
theorem ofMaterial_eq_cutAt_narrow (rs : List Recipe) (m : Material) {limits wider : Limits}
    (hd : limits.depth ≤ wider.depth) (hw : limits.width ≤ wider.width) :
    ofMaterial (Producers.ofList rs) m limits =
      cutAt (limits.depth + 1)
        (narrow limits.width (ofMaterial (Producers.ofList rs) m wider)) := by
  rw [ofMaterial_eq_growTo, ofMaterial_eq_growTo, narrow_growTo _ hw,
    cutAt_growTo (Producers.inRange_ofList rs) _ (Nat.succ_le_succ hd)]

/-- Out of five ways and three levels for a torch, one way and one level: first the other ways go,
then the levels below. -/
theorem ofMaterial_torch_eq_cutAt_narrow :
    let torch := ofMaterial (Producers.ofList Samples.wood) (Material.ofItemId "minecraft:torch")
    (torch ⟨0, 1⟩).size < (narrow 1 (torch ⟨2, 5⟩)).size ∧
    (narrow 1 (torch ⟨2, 5⟩)).size < (torch ⟨2, 5⟩).size ∧
    torch ⟨0, 1⟩ = cutAt 1 (narrow 1 (torch ⟨2, 5⟩)) :=
  ⟨by decide +kernel, by decide +kernel,
    ofMaterial_eq_cutAt_narrow Samples.wood _ (by decide) (by decide)⟩

end Expansion

end RecipePlanner

import RecipePlanner.Proofs.Expansion.Nodes
import RecipePlanner.Samples

/-!
# Where an expansion stops

No node stands deeper than one level below the depth allowed, and why a node stops follows from what
stands above it: a cycle if its identifier occurs there, else a base material if no recipe yields
it, else the depth limit if it stands on the last level, and otherwise it does not stop
(`stop_of_nodeAt`). A node that stops has nothing below it, and one that does not has alternatives.
-/

namespace RecipePlanner.Expansion

variable {p : Producers} {width n : Nat} {lineage : List String} {m : Material}

/-- Why a node with `n` levels left stops, if it does. -/
theorem stop_growTo (hp : p.InRange) :
    (growTo p width n lineage m).stop =
      if m.id ∈ lineage then some .cycle
      else if p.isBase m then some .base
      else if n = 0 then some .depthLimit
      else none := by
  cases n with
  | zero =>
    rw [growTo]
    rcases cutOff_cases p lineage m with ⟨h, hn⟩ | ⟨h, hbase, hn⟩ | ⟨h, hbase, hn⟩
    · rw [hn, if_pos h]
      rfl
    · rw [hn, if_neg h, if_pos hbase]
      rfl
    · rw [hn, if_neg h, hbase]
      rfl
  | succ n =>
    rw [growTo_succ]
    rcases nodeWith_cases p width lineage m (growTo p width n) with
      ⟨h, hn⟩ | ⟨h, halt, hn⟩ | ⟨h, halt, hn⟩
    · rw [hn, if_pos h]
      rfl
    · rw [hn, if_neg h, if_pos ((alternatives_eq_nil_iff hp m).1 halt)]
      rfl
    · have hbase : ¬ p.isBase m = true := fun hb => halt ((alternatives_eq_nil_iff hp m).2 hb)
      rw [hn, if_neg h, if_neg hbase, if_neg (Nat.succ_ne_zero n)]
      rfl

/-- A node that stops lists and counts nothing; one that does not has at least one alternative. -/
theorem size_growTo (p : Producers) (width n : Nat) (lineage : List String) (m : Material) :
    ((growTo p width n lineage m).stop ≠ none →
      (growTo p width n lineage m).branches = [] ∧ (growTo p width n lineage m).more = 0) ∧
    ((growTo p width n lineage m).stop = none →
      1 ≤ (growTo p width n lineage m).branches.length + (growTo p width n lineage m).more) := by
  obtain ⟨s, hn⟩ | ⟨k, -, -, halt, hn⟩ := growTo_cases p width n lineage m
  · rw [hn]
    exact ⟨fun _ => ⟨rfl, rfl⟩, fun h => absurd h (Option.some_ne_none s)⟩
  · rw [hn]
    refine ⟨fun h => absurd rfl h, fun _ => ?_⟩
    have hpos := List.length_pos_iff.2 halt
    rw [branches, more, List.length_map, List.length_take]
    omega

/-- Only a node that stops is terminal. -/
theorem isTerminal_growTo_iff :
    (growTo p width n lineage m).isTerminal = true ↔
      (growTo p width n lineage m).stop ≠ none := by
  obtain ⟨hstop, hnone⟩ := size_growTo p width n lineage m
  rw [isTerminal, Bool.and_eq_true, List.isEmpty_iff, beq_iff_eq]
  constructor
  · rintro ⟨hb, hm⟩ hs
    have hsize := hnone hs
    rw [hb, hm] at hsize
    exact absurd hsize (by decide)
  · exact hstop

/-- A node of an expansion stands at most one level below the depth allowed. It is a cycle exactly
if its identifier occurs above it, else a base material exactly if no recipe yields it, else cut off
exactly if it stands on the last level, and else it does not stop. A node that stops lists and
counts no alternatives and any other node has at least one, so the nodes that stop are the terminal
ones. -/
theorem stop_of_nodeAt (rs : List Recipe) (m : Material) (limits : Limits)
    {above : List Material} {e : Expansion}
    (h : NodeAt (ofMaterial (Producers.ofList rs) m limits) above e) :
    above.length ≤ limits.depth + 1 ∧
    e.stop =
      (if e.material.id ∈ above.map Material.id then some .cycle
      else if (Producers.ofList rs).isBase e.material then some .base
      else if above.length = limits.depth + 1 then some .depthLimit
      else none) ∧
    (e.stop ≠ none → e.branches = [] ∧ e.more = 0) ∧
    (e.stop = none → 1 ≤ e.branches.length + e.more) ∧
    (e.isTerminal = true ↔ e.stop ≠ none) := by
  rw [ofMaterial_eq_growTo] at h
  obtain ⟨k, hk, he⟩ := eq_growTo_of_nodeAt h
  rw [List.append_nil] at he
  -- The levels left and the materials above add up, so the last level is where none are left.
  have hlast : above.length = limits.depth + 1 ↔ k = 0 := by omega
  obtain ⟨hstop, hnone⟩ := size_growTo (Producers.ofList rs) limits.width k
    (above.map Material.id) e.material
  refine ⟨by omega, ?_, ?_, ?_, ?_⟩
  · simp only [hlast]
    rw [← stop_growTo (Producers.inRange_ofList rs), ← he]
  · rw [he]
    exact hstop
  · rw [he]
    exact hnone
  · rw [he]
    exact isTerminal_growTo_iff

/-- Blocks are made of ingots and ingots of blocks, so the block below the ingot is a cycle. -/
theorem stop_of_nodeAt_ingot_below_block :
    ∃ above e,
      NodeAt (ofMaterial (Producers.ofList Samples.iron)
        (Material.ofItemId "minecraft:iron_block") ⟨2, 5⟩) above e ∧
      above.map Material.id = ["minecraft:iron_ingot", "minecraft:iron_block"] ∧
      e.material.id = "minecraft:iron_block" ∧ above.length ≤ 3 ∧ e.stop = some .cycle ∧
      e.branches = [] ∧ e.more = 0 ∧ e.isTerminal = true := by
  let root := ofMaterial (Producers.ofList Samples.iron)
    (Material.ofItemId "minecraft:iron_block") ⟨2, 5⟩
  have hroot : root.material.id = "minecraft:iron_block" := by decide +kernel
  obtain ⟨b, hb, ingot, hi, hingot, c, hc, e, he, hblock⟩ :
      ∃ b ∈ root.branches, ∃ ingot ∈ b.needs, ingot.material.id = "minecraft:iron_ingot" ∧
        ∃ c ∈ ingot.branches, ∃ e ∈ c.needs, e.material.id = "minecraft:iron_block" := by
    decide +kernel
  have hnode : NodeAt root [ingot.material, root.material] e :=
    .need (.need .root hb hi) hc he
  have habove : [ingot.material, root.material].map Material.id =
      ["minecraft:iron_ingot", "minecraft:iron_block"] := by
    rw [List.map_cons, List.map_cons, hingot, hroot, List.map_nil]
  obtain ⟨hlevel, hstop, hbelow, -, hterminal⟩ := stop_of_nodeAt Samples.iron _ _ hnode
  have hcycle : e.stop = some .cycle := by
    rw [hstop, habove, hblock, if_pos (by decide)]
  have hsome : e.stop ≠ none := by
    rw [hcycle]
    exact Option.some_ne_none _
  exact ⟨_, e, hnode, habove, hblock, hlevel, hcycle, (hbelow hsome).1, (hbelow hsome).2,
    hterminal.2 hsome⟩

end RecipePlanner.Expansion

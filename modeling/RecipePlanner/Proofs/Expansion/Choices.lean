import Mathlib.Data.List.Nodup
import RecipePlanner.Proofs.BranchKey.Distinct
import RecipePlanner.Proofs.Expansion.Nodes

/-!
# Choosing among the branches of a node

The branches of a node are the first of its ranked alternatives, and ranking only changes the order
of the keys that were assigned. So the branches of a node have different keys
(`nodup_keys_of_nodeAt`), and the first branch with a key is the only one.
-/

namespace RecipePlanner.Expansion

/-- The ranked alternatives for a material have the keys assigned to its recipes. -/
theorem map_key_alternatives_perm (p : Producers) (m : Material) :
    ((alternatives p m).map (·.2.key)).Perm (BranchKey.assign (p.producing m)) := by
  rw [← Producers.map_key_keyed]
  have hperm := (rank_perm ((p.keyed m).map fun k => (scoreOf p k.recipe, k))).map (·.2.key)
  rwa [List.map_map] at hperm

theorem nodup_keys_growTo (p : Producers) (width n : Nat) (lineage : List String) (m : Material) :
    ((growTo p width n lineage m).branches.map Branch.key).Nodup := by
  obtain ⟨s, hn⟩ | ⟨k, -, -, -, hn⟩ := growTo_cases p width n lineage m
  · rw [hn]
    exact List.nodup_nil
  · rw [hn, branches, List.map_map]
    have hall : ((alternatives p m).map (·.2.key)).Nodup :=
      (map_key_alternatives_perm p m).nodup_iff.2 (BranchKey.nodup_assign (p.producing m))
    exact hall.sublist ((List.take_sublist width (alternatives p m)).map (·.2.key))

/-- The branches of any node of an expansion have different keys. -/
theorem nodup_keys_of_nodeAt {p : Producers} {m : Material} {limits : Limits}
    {above : List Material} {e : Expansion} (h : NodeAt (ofMaterial p m limits) above e) :
    (e.branches.map Branch.key).Nodup := by
  -- A node is grown by the same rule as the root, so one rule is all there is to look at.
  rw [ofMaterial_eq_growTo] at h
  obtain ⟨n, -, he⟩ := eq_growTo_of_nodeAt h
  rw [he]
  exact nodup_keys_growTo p limits.width n _ e.material

/-- Where the keys of the branches differ, each branch is the one with its key. -/
theorem branch?_key {e : Expansion} (hkeys : (e.branches.map Branch.key).Nodup) {b : Branch}
    (hb : b ∈ e.branches) : e.branch? b.key = some b := by
  rw [branch?]
  have hsome : (e.branches.find? fun c => c.key = b.key).isSome = true :=
    List.find?_isSome.2 ⟨b, hb, decide_eq_true rfl⟩
  obtain ⟨c, hc⟩ := Option.isSome_iff_exists.1 hsome
  have hkey : c.key = b.key := by simpa using List.find?_some hc
  rw [hc, List.inj_on_of_nodup_map hkeys (List.mem_of_find?_eq_some hc) hb hkey]

/-- Keys are unambiguous. Every list of recipes, whatever their methods and the names of their
documents, is given one key for each recipe, all of them different; none is empty, and all are made
up of small letters, digits, underscores and dots, which a written route holds as they are. So each
branch of each node of an expansion is what its own key chooses there. -/
theorem unambiguous_keys :
    (∀ rs : List Recipe,
      (BranchKey.assign rs).length = rs.length ∧ (BranchKey.assign rs).Nodup ∧
        ∀ k ∈ BranchKey.assign rs,
          k ≠ "" ∧ BranchKey.IsKey k ∧ Route.segment k = Text.bytes k) ∧
    ∀ (p : Producers) (m : Material) (limits : Limits) (above : List Material) (e : Expansion),
      NodeAt (ofMaterial p m limits) above e → ∀ b ∈ e.branches, e.branch? b.key = some b := by
  constructor
  · intro rs
    refine ⟨BranchKey.length_assign rs, BranchKey.nodup_assign rs, ?_⟩
    intro k hk
    have hkey := BranchKey.isKey_of_mem_assign hk
    exact ⟨BranchKey.ne_empty_of_mem_assign hk, hkey, BranchKey.segment_of_isKey hkey⟩
  · intro p m limits above e he b hb
    exact branch?_key (nodup_keys_of_nodeAt he) hb

end RecipePlanner.Expansion

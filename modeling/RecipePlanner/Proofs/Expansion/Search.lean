import RecipePlanner.Proofs.Expansion.Nodes

/-!
# Searching an expansion

What a depth-first search finds is a node of the expansion that is wanted (`nodeAt_of_findWhere?`),
and it finds one if there is any (`isSome_findWhere?_of_nodeAt`). `NodeAt` goes down to a node from
the root; the search goes on in the expansions below a node, so the first step down is cut off and put
back (`nodeAt_cases`, `nodeAt_of_need`). `Expansion.induct` is the induction that the search follows,
with one hypothesis for all that is needed below a node.
-/

namespace RecipePlanner.Expansion

mutual

/-- Induction on an expansion, with the statement at hand for all that its branches need. -/
theorem induct {P : Expansion → Prop}
    (hnode : ∀ m bs more stop, (∀ b ∈ bs, ∀ e ∈ b.needs, P e) → P (node m bs more stop)) :
    ∀ e : Expansion, P e
  | node m bs more stop => hnode m bs more stop (inductBranches hnode bs)

/-- The companion of `induct` on the branches of a node. -/
theorem inductBranches {P : Expansion → Prop}
    (hnode : ∀ m bs more stop, (∀ b ∈ bs, ∀ e ∈ b.needs, P e) → P (node m bs more stop)) :
    ∀ bs : List Branch, ∀ b ∈ bs, ∀ e ∈ b.needs, P e
  | [] => List.forall_mem_nil _
  | .mk _ _ needs :: bs =>
    List.forall_mem_cons.2 ⟨inductNeeds hnode needs, inductBranches hnode bs⟩

/-- The companion of `induct` on what a branch needs. -/
theorem inductNeeds {P : Expansion → Prop}
    (hnode : ∀ m bs more stop, (∀ b ∈ bs, ∀ e ∈ b.needs, P e) → P (node m bs more stop)) :
    ∀ es : List Expansion, ∀ e ∈ es, P e
  | [] => List.forall_mem_nil P
  | e :: es => List.forall_mem_cons.2 ⟨induct hnode e, inductNeeds hnode es⟩

end

/-! ## The first step down -/

/-- A node below one of the needs of a branch stands in the whole expansion, below the root too. -/
theorem nodeAt_of_need {root child x : Expansion} {above : List Material} {b : Branch}
    (h : NodeAt child above x) (hb : b ∈ root.branches) (hc : child ∈ b.needs) :
    NodeAt root (above ++ [root.material]) x := by
  induction h with
  | root => exact .need .root hb hc
  | need _ hb' hc' ih => exact .need ih hb' hc'

/-- A node is the root, or it stands below one of the needs of a branch of the root. -/
theorem nodeAt_cases {root x : Expansion} {above : List Material} (h : NodeAt root above x) :
    x = root ∨ ∃ b ∈ root.branches, ∃ child ∈ b.needs, ∃ above', NodeAt child above' x := by
  induction h with
  | root => exact Or.inl rfl
  | @need above parent child b _ hb hc ih =>
    rcases ih with rfl | ⟨first, hfirst, need, hneed, above', hparent⟩
    · exact Or.inr ⟨b, hb, child, hc, [], .root⟩
    · exact Or.inr ⟨first, hfirst, need, hneed, _, hparent.need hb hc⟩

/-! ## The search -/

section Search

variable (wanted : Expansion → Bool)

theorem findInAll?_eq_findSome? (es : List Expansion) :
    findInAll? wanted es = es.findSome? (findWhere? wanted) := by
  induction es with
  | nil => rfl
  | cons e es ih =>
    rw [findInAll?, List.findSome?_cons, ih]
    cases findWhere? wanted e <;> rfl

theorem findInBranches?_eq_findSome? (bs : List Branch) :
    findInBranches? wanted bs = bs.findSome? fun b => b.needs.findSome? (findWhere? wanted) := by
  induction bs with
  | nil => rfl
  | cons b bs ih =>
    obtain ⟨choice, score, needs⟩ := b
    rw [findInBranches?, List.findSome?_cons, ih, findInAll?_eq_findSome?, Branch.needs]
    cases needs.findSome? (findWhere? wanted) <;> rfl

/-- The search looks at a node and then, branch by branch, at what is needed below it. -/
theorem findWhere?_node (m : Material) (bs : List Branch) (more : Nat) (stop : Option Stop) :
    findWhere? wanted (node m bs more stop) =
      if wanted (node m bs more stop) then some (node m bs more stop)
      else bs.findSome? fun b => b.needs.findSome? (findWhere? wanted) := by
  rw [findWhere?, findInBranches?_eq_findSome?]

variable {wanted}

/-- What is found is wanted and stands in the expansion. -/
theorem nodeAt_of_findWhere? {e x : Expansion} (h : findWhere? wanted e = some x) :
    wanted x = true ∧ ∃ above, NodeAt e above x := by
  induction e using induct with
  | hnode m bs more stop ih =>
    rw [findWhere?_node] at h
    split at h
    · next hwanted =>
      cases h
      exact ⟨hwanted, [], .root⟩
    · obtain ⟨b, hb, h⟩ := List.exists_of_findSome?_eq_some h
      obtain ⟨child, hc, h⟩ := List.exists_of_findSome?_eq_some h
      obtain ⟨hwanted, above, hnode⟩ := ih b hb child hc h
      exact ⟨hwanted, _, nodeAt_of_need hnode hb hc⟩

theorem isSome_findWhere?_of_nodeAt {e x : Expansion} {above : List Material}
    (h : NodeAt e above x) (hwanted : wanted x = true) : (findWhere? wanted e).isSome = true := by
  induction e using induct generalizing above with
  | hnode m bs more stop ih =>
    rw [findWhere?_node]
    split
    · rfl
    · next hroot =>
      -- The root is not wanted, so the node stands below one of the needs that are searched.
      rcases nodeAt_cases h with rfl | ⟨b, hb, child, hc, above', hchild⟩
      · exact absurd hwanted hroot
      · rw [List.findSome?_isSome_iff]
        refine ⟨b, hb, ?_⟩
        rw [List.findSome?_isSome_iff]
        exact ⟨child, hc, ih b hb child hc hchild⟩

end Search

/-- A node was expanded or needs no expansion: it is neither a cycle nor cut off. -/
def IsResolved (e : Expansion) : Prop := e.stop = none ∨ e.stop = some .base

/-- The search for a resolved node finds one for the item, if any. -/
theorem nodeAt_of_findResolved? {id : String} {e x : Expansion}
    (h : e.findResolved? id = some x) :
    x.material.id = id ∧ x.IsResolved ∧ ∃ above, NodeAt e above x := by
  obtain ⟨hwanted, hnode⟩ := nodeAt_of_findWhere? h
  simp only [Bool.and_eq_true, Bool.or_eq_true, beq_iff_eq, decide_eq_true_eq] at hwanted
  exact ⟨hwanted.1, hwanted.2, hnode⟩

theorem exists_findResolved?_of_nodeAt {id : String} {e x : Expansion} {above : List Material}
    (h : NodeAt e above x) (hid : x.material.id = id) (hx : x.IsResolved) :
    ∃ y, e.findResolved? id = some y := by
  apply Option.isSome_iff_exists.1
  apply isSome_findWhere?_of_nodeAt h
  simp only [Bool.and_eq_true, Bool.or_eq_true, beq_iff_eq, decide_eq_true_eq]
  exact ⟨hid, hx⟩

end RecipePlanner.Expansion

import RecipePlanner.Proofs.Route.Grammar

/-!
# Reading back a written route

A route is read back from its text exactly if its texts are filled, no item repeats in a lineage
and it has at most `maxDepth` levels (`decode?_encode_eq_some_iff`). One direction follows the
printer: what it writes for a node is a derivation of that node, in front of everything that can
stand behind it, and a node that is not grouped never stands in front of another part
(`derives_nodeBytes`). The other direction holds of every text, written by the printer or not:
whatever the reader returns keeps these rules (`rules_of_readNode`).
-/

namespace RecipePlanner.Route

/-! ## The written form of a node -/

/-- The parts of a node behind their mark, nothing if there are none. -/
def groupBytes (grouped : Bool) (ps : List Route) : List UInt8 :=
  if ps.isEmpty then []
  else if grouped then byteOf '~' :: byteOf '(' :: partsBytes ps ++ [byteOf ')']
  else byteOf '~' :: partsBytes ps

theorem nodeBytes_node (grouped : Bool) (i : String) (c : Option String) (ps : List Route) :
    nodeBytes grouped (node i c ps) = segment i ++ (choiceBytes c ++ groupBytes grouped ps) := by
  rw [nodeBytes, List.append_assoc, groupBytes]

theorem partsBytes_singleton (p : Route) : partsBytes [p] = nodeBytes false p :=
  List.append_nil _

theorem partsBytes_cons_cons (p q : Route) (qs : List Route) :
    partsBytes (p :: q :: qs) = nodeBytes true p ++ byteOf '|' :: partsBytes (q :: qs) := by
  rw [partsBytes]
  rfl

/-! ## What is written has a derivation -/

theorem isChoice_choiceBytes {c : Option String} (h : c ≠ some "") : IsChoice (choiceBytes c) c := by
  cases c with
  | none => exact .absent
  | some text =>
    have ht : text ≠ "" := fun heq => h (congrArg some heq)
    exact .present (isSegment_segment ht)

/-- A part with another one behind it is grouped; the last one is not, and behind it stands what
stands behind all. -/
theorem derivesParts_partsBytes {ps : List Route} (hps : ps ≠ [])
    (hpart : ∀ p ∈ ps, ∀ grouped follow, (grouped = false → follow ≠ some (byteOf '|')) →
      Derives follow (nodeBytes grouped p) p)
    {follow : Option UInt8} (hfollow : follow ≠ some (byteOf '|')) :
    DerivesParts follow (partsBytes ps) ps := by
  induction ps with
  | nil => exact absurd rfl hps
  | cons p ps ih =>
    have hp := hpart p List.mem_cons_self
    cases ps with
    | nil =>
      rw [partsBytes_singleton]
      exact .last (hp false follow fun _ => hfollow)
    | cons q qs =>
      have hrest : DerivesParts follow (partsBytes (q :: qs)) (q :: qs) :=
        ih (List.cons_ne_nil q qs) fun p' hp' => hpart p' (List.mem_cons_of_mem p hp')
      have hgrouped : true = false → some (byteOf '|') ≠ some (byteOf '|') := Bool.noConfusion
      rw [partsBytes_cons_cons]
      exact .cons (hp true _ hgrouped) hrest

theorem derivesGroup_groupBytes {ps : List Route}
    (hpart : ∀ p ∈ ps, ∀ grouped follow, (grouped = false → follow ≠ some (byteOf '|')) →
      Derives follow (nodeBytes grouped p) p)
    {grouped : Bool} {follow : Option UInt8}
    (hfollow : grouped = false → follow ≠ some (byteOf '|')) :
    DerivesGroup follow (groupBytes grouped ps) ps := by
  rw [groupBytes]
  by_cases hps : ps = []
  · subst hps
    exact .absent
  · rw [if_neg (mt List.isEmpty_iff.1 hps)]
    cases grouped with
    | true => exact .closed (derivesParts_partsBytes hps hpart (by decide))
    | false => exact .bare (hfollow rfl) (derivesParts_partsBytes hps hpart (hfollow rfl))

/-- What is written for a node derives it, in front of everything that can stand behind it. -/
theorem derives_nodeBytes (r : Route) (hf : r.Filled) {grouped : Bool} {follow : Option UInt8}
    (hfollow : grouped = false → follow ≠ some (byteOf '|')) :
    Derives follow (nodeBytes grouped r) r := by
  induction r using induct generalizing grouped follow with
  | hnode i c ps ih =>
    obtain ⟨hitem, hchoice, hparts⟩ := filled_node_iff.1 hf
    rw [nodeBytes_node]
    refine .node (isSegment_segment hitem) (isChoice_choiceBytes hchoice) ?_
    exact derivesGroup_groupBytes (fun p hp _ _ => ih p hp (hparts p hp)) hfollow

/-! ## The round trip -/

/-- The bytes of written parts are those of the parts and the marks between them. -/
theorem mem_partsBytes {b : UInt8} {ps : List Route} (h : b ∈ partsBytes ps) :
    b = byteOf '|' ∨ ∃ p ∈ ps, ∃ grouped, b ∈ nodeBytes grouped p := by
  induction ps with
  | nil => cases h
  | cons p ps ih =>
    rw [partsBytes, List.mem_append] at h
    rcases h with h | h
    · exact Or.inr ⟨p, List.mem_cons_self, _, h⟩
    · split at h
      · cases h
      · rcases List.mem_cons.1 h with h | h
        · exact Or.inl h
        · obtain h | ⟨q, hq, hb⟩ := ih h
          · exact Or.inl h
          · exact Or.inr ⟨q, List.mem_cons_of_mem p hq, hb⟩

theorem isWritten_of_mem_nodeBytes (r : Route) {grouped : Bool} {b : UInt8}
    (h : b ∈ nodeBytes grouped r) : isWritten b = true := by
  induction r using induct generalizing grouped b with
  | hnode i c ps ih =>
    have hparts : ∀ b ∈ partsBytes ps, isWritten b = true := by
      intro b hb
      rcases mem_partsBytes hb with rfl | ⟨p, hp, _, hb⟩
      · decide
      · exact ih p hp hb
    have hchoice : ∀ b ∈ choiceBytes c, isWritten b = true := by
      cases c with
      | none => exact List.forall_mem_nil _
      | some text =>
        exact List.forall_mem_cons.2 ⟨by decide, fun b hb => isWritten_of_mem_segment hb⟩
    rw [nodeBytes_node, List.mem_append, List.mem_append] at h
    rcases h with h | h | h
    · exact isWritten_of_mem_segment h
    · exact hchoice b h
    · rw [groupBytes] at h
      split at h
      · cases h
      · have hmarks : isWritten (byteOf '~') = true ∧ isWritten (byteOf '(') = true ∧
            isWritten (byteOf ')') = true := by decide
        split at h
        · simp only [List.mem_cons, List.mem_append, List.cons_append, List.not_mem_nil,
            or_false] at h
          grind
        · simp only [List.mem_cons] at h
          grind

theorem bytes_encode (r : Route) : Text.bytes (encode r) = nodeBytes false r :=
  bytes_ofList_ascii fun b hb => lt_128_of_isWritten b (isWritten_of_mem_nodeBytes r hb)

/-- A route that keeps the rules is read back from its text. -/
theorem decode?_encode {r : Route} (hf : r.Filled) (hl : r.Lineal) (hd : r.depth ≤ maxDepth) :
    decode? (encode r) = some r := by
  have hderives : Derives ([] : List UInt8).head? (nodeBytes false r) r :=
    derives_nodeBytes r hf fun _ => nofun
  have hread : readNode (nodeBytes false r).length maxDepth [] (nodeBytes false r ++ []) =
      .ok (r, []) :=
    readNode_of_derives _ r hl hd (fun _ _ => List.not_mem_nil) hderives atEnd_nil
  rw [decode?_eq_some_iff, bytes_encode]
  rwa [List.append_nil] at hread

/-- A route is read back from its text exactly if no item and no choice in it is the empty text,
no item repeats on the way from the root to a leaf, and it has at most `maxDepth` levels. -/
theorem decode?_encode_eq_some_iff (r : Route) :
    decode? (encode r) = some r ↔ r.Filled ∧ r.Lineal ∧ r.depth ≤ maxDepth := by
  constructor
  · exact rules_of_decode?
  · rintro ⟨hf, hl, hd⟩
    exact decode?_encode hf hl hd

/-- Only the parts of a node with another part behind it stand in parentheses. -/
example :
    encode (node "torch" none [node "stick" (some "crafting_shaped") [ofItem "#planks"],
      node "charcoal" none [ofItem "log"]]) =
      "torch~stick>crafting_shaped~(%23planks)|charcoal~log" := by
  decide +kernel

end RecipePlanner.Route

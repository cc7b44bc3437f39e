import RecipePlanner.Proofs.Route.Lineage
import RecipePlanner.Proofs.Route.Segment

/-!
# The grammar of written routes

    node  := segment ('>' segment)? ('~' group)?
    group := '(' parts ')' | parts
    parts := node ('|' node)*

`Derives follow w r` says that `r` is the tree of a derivation of `w` where `follow` is the byte
right behind `w`, if there is one. The byte behind is there for one rule: parts without parentheses
take all that are separated by `|`, so no `|` may follow them. The reader accepts exactly what is
derived, as long as no item repeats along a lineage and there are not too many levels
(`decode_eq_ok_iff`).

A derivation is found by following the reader (`derives_of_readNode`). Conversely the reader finds
every derivation, in front of whatever can stand behind a node (`readNode_of_derives`): a segment
reaches up to the next mark, and what mark that is decides how to go on.
-/

namespace RecipePlanner.Route

open Outcome

/-- A segment behind its mark, or nothing. -/
inductive IsChoice : List UInt8 → Option String → Prop where
  | absent : IsChoice [] none
  | present {w : List UInt8} {text : String} (h : IsSegment w text) :
      IsChoice (byteOf '>' :: w) (some text)

/-! ## Derivations -/

mutual

/-- An item with its choice and its group; the group ends where the node does. -/
inductive Derives : (follow : Option UInt8) → List UInt8 → Route → Prop where
  | node {follow : Option UInt8} {segment choiceBytes group : List UInt8} {item : String}
      {choice : Option String} {parts : List Route} (hitem : IsSegment segment item)
      (hchoice : IsChoice choiceBytes choice) (hgroup : DerivesGroup follow group parts) :
      Derives follow (segment ++ (choiceBytes ++ group)) (node item choice parts)

/-- Parts behind their mark, in parentheses or without, or nothing. -/
inductive DerivesGroup : (follow : Option UInt8) → List UInt8 → List Route → Prop where
  | absent {follow : Option UInt8} : DerivesGroup follow [] []
  | closed {follow : Option UInt8} {w : List UInt8} {parts : List Route}
      (h : DerivesParts (some (byteOf ')')) w parts) :
      DerivesGroup follow (byteOf '~' :: byteOf '(' :: (w ++ [byteOf ')'])) parts
  | bare {follow : Option UInt8} {w : List UInt8} {parts : List Route}
      (hgreedy : follow ≠ some (byteOf '|')) (h : DerivesParts follow w parts) :
      DerivesGroup follow (byteOf '~' :: w) parts

/-- One node, or more with marks between them. -/
inductive DerivesParts : (follow : Option UInt8) → List UInt8 → List Route → Prop where
  | last {follow : Option UInt8} {w : List UInt8} {p : Route} (h : Derives follow w p) :
      DerivesParts follow w [p]
  | cons {follow : Option UInt8} {w ws : List UInt8} {p : Route} {ps : List Route}
      (h : Derives (some (byteOf '|')) w p) (hrest : DerivesParts follow ws ps) :
      DerivesParts follow (w ++ byteOf '|' :: ws) (p :: ps)

end

theorem Derives.eq_cons {follow : Option UInt8} {w : List UInt8} {r : Route}
    (h : Derives follow w r) : ∃ b t, w = b :: t ∧ isMark b = false := by
  cases h with
  | node hitem _ _ =>
    obtain ⟨b, t, rfl, hmark⟩ := hitem.eq_cons
    exact ⟨b, _, rfl, hmark⟩

theorem DerivesParts.eq_cons {follow : Option UInt8} {w : List UInt8} {ps : List Route}
    (h : DerivesParts follow w ps) : ∃ b t, w = b :: t ∧ isMark b = false := by
  cases h with
  | last h => exact h.eq_cons
  | cons h _ =>
    obtain ⟨b, t, rfl, hmark⟩ := h.eq_cons
    exact ⟨b, _, rfl, hmark⟩

/-! ## What is read has a derivation -/

theorem isChoice_of_readChoice {size : Nat} {s rest : List UInt8} {choice : Option String}
    (h : readChoice size s = .ok (choice, rest)) : ∃ w, s = w ++ rest ∧ IsChoice w choice := by
  rcases readChoice_eq_ok_iff.1 h with ⟨-, rfl, rfl⟩ | ⟨inner, text, he, hr, rfl⟩
  · exact ⟨[], rfl, .absent⟩
  · obtain ⟨w, rfl, hw, -⟩ := readSegment_iff_isSegment.1 hr
    exact ⟨byteOf '>' :: w, eat?_eq_some_iff.1 he, .present hw⟩

section Sound

variable {part : List UInt8 → Except DecodeFault (Route × List UInt8)}

/-- Parts that are read end where no further one follows. The bound on their number is never what
ends them, because each takes at least one byte. -/
theorem derivesParts_of_readParts
    (hpart : ∀ s p rest, part s = .ok (p, rest) → ∃ w, s = w ++ rest ∧ Derives rest.head? w p)
    {bound : Nat} {s rest : List UInt8} {ps : List Route} (hb : s.length ≤ bound)
    (h : readParts part bound s = .ok (ps, rest)) :
    rest.head? ≠ some (byteOf '|') ∧ ∃ w, s = w ++ rest ∧ DerivesParts rest.head? w ps := by
  induction bound generalizing s ps with
  | zero =>
    obtain ⟨p, hp, rfl⟩ := readParts_zero_eq_ok_iff.1 h
    obtain ⟨w, rfl, hw⟩ := hpart _ _ _ hp
    -- Within a bound of zero there is nothing to read, but a part takes a byte.
    obtain ⟨b, t, rfl, -⟩ := hw.eq_cons
    cases hb
  | succ bound ih =>
    obtain ⟨p, left, hp, ⟨he, rfl, rfl⟩ | ⟨inner, qs, he, hq, rfl⟩⟩ :=
      readParts_succ_eq_ok_iff.1 h
    · obtain ⟨w, rfl, hw⟩ := hpart _ _ _ hp
      exact ⟨eat?_eq_none_iff.1 he, w, rfl, .last hw⟩
    · cases eat?_eq_some_iff.1 he
      obtain ⟨w, rfl, hw⟩ := hpart _ _ _ hp
      rw [List.length_append, List.length_cons] at hb
      obtain ⟨hend, ws, rfl, hws⟩ := ih (by omega) hq
      refine ⟨hend, w ++ byteOf '|' :: ws, ?_, .cons hw hws⟩
      rw [List.append_assoc, List.cons_append]

theorem derivesGroup_of_readGroup
    (hpart : ∀ s p rest, part s = .ok (p, rest) → ∃ w, s = w ++ rest ∧ Derives rest.head? w p)
    {size : Nat} {s rest : List UInt8} {ps : List Route}
    (h : readGroup size part s = .ok (ps, rest)) :
    ∃ w, byteOf '~' :: s = w ++ rest ∧ DerivesGroup rest.head? w ps := by
  rcases readGroup_eq_ok_iff.1 h with ⟨-, hr⟩ | ⟨inner, left, he, hr, hclose⟩
  · obtain ⟨hend, w, rfl, hw⟩ := derivesParts_of_readParts hpart (Nat.le_refl _) hr
    exact ⟨byteOf '~' :: w, rfl, .bare hend hw⟩
  · cases eat?_eq_some_iff.1 he
    cases eat?_eq_some_iff.1 hclose
    obtain ⟨-, w, rfl, hw⟩ := derivesParts_of_readParts hpart (Nat.le_refl _) hr
    refine ⟨byteOf '~' :: byteOf '(' :: (w ++ [byteOf ')']), ?_, .closed hw⟩
    simp

end Sound

theorem derives_of_readNode {size levels : Nat} {lineage : List String} {s rest : List UInt8}
    {r : Route} (h : readNode size levels lineage s = .ok (r, rest)) :
    ∃ w, s = w ++ rest ∧ Derives rest.head? w r := by
  induction levels generalizing lineage s rest r with
  | zero => cases h
  | succ n ih =>
    obtain ⟨i, c, left, left', hs, -, hc, hr⟩ := readNode_succ_eq_ok_iff.1 h
    obtain ⟨w, rfl, hw, -⟩ := readSegment_iff_isSegment.1 hs
    obtain ⟨v, rfl, hv⟩ := isChoice_of_readChoice hc
    have hgroup : ∃ ps u, r = node i c ps ∧ left' = u ++ rest ∧ DerivesGroup rest.head? u ps := by
      rcases hr with ⟨-, rfl, rfl⟩ | ⟨inner, ps, he, hg, rfl⟩
      · exact ⟨[], [], rfl, rfl, .absent⟩
      · cases eat?_eq_some_iff.1 he
        obtain ⟨u, hu, hgroup⟩ := derivesGroup_of_readGroup (fun _ _ _ => ih) hg
        exact ⟨ps, u, rfl, hu, hgroup⟩
    obtain ⟨ps, u, rfl, rfl, hu⟩ := hgroup
    refine ⟨w ++ (v ++ u), ?_, .node hw hv hu⟩
    rw [List.append_assoc, List.append_assoc]

/-! ## What is read keeps the rules -/

/-- If every part that is read satisfies `P`, so does every route of the parts. -/
theorem forall_mem_of_readParts {P : Route → Prop}
    {part : List UInt8 → Except DecodeFault (Route × List UInt8)}
    (hpart : ∀ s p rest, part s = .ok (p, rest) → P p) {bound : Nat} {s rest : List UInt8}
    {ps : List Route} (h : readParts part bound s = .ok (ps, rest)) : ∀ p ∈ ps, P p := by
  induction bound generalizing s ps with
  | zero =>
    obtain ⟨p, hp, rfl⟩ := readParts_zero_eq_ok_iff.1 h
    exact List.forall_mem_singleton.2 (hpart s p rest hp)
  | succ bound ih =>
    obtain ⟨p, left, hp, ⟨-, rfl, -⟩ | ⟨inner, qs, -, hq, rfl⟩⟩ := readParts_succ_eq_ok_iff.1 h
    · exact List.forall_mem_singleton.2 (hpart s p left hp)
    · exact List.forall_mem_cons.2 ⟨hpart s p left hp, ih hq⟩

theorem forall_mem_of_readGroup {P : Route → Prop} {size : Nat}
    {part : List UInt8 → Except DecodeFault (Route × List UInt8)}
    (hpart : ∀ s p rest, part s = .ok (p, rest) → P p) {s rest : List UInt8}
    {ps : List Route} (h : readGroup size part s = .ok (ps, rest)) : ∀ p ∈ ps, P p := by
  rcases readGroup_eq_ok_iff.1 h with ⟨-, hr⟩ | ⟨inner, left, -, hr, -⟩
  · exact forall_mem_of_readParts hpart hr
  · exact forall_mem_of_readParts hpart hr

theorem ne_empty_of_readChoice {size : Nat} {s rest : List UInt8} {c : Option String}
    (h : readChoice size s = .ok (c, rest)) : c ≠ some "" := by
  rcases readChoice_eq_ok_iff.1 h with ⟨-, rfl, -⟩ | ⟨inner, text, -, hr, rfl⟩
  · exact nofun
  · exact fun ht => (readSegment_eq_ok_iff.1 hr).1 (Option.some.inj ht)

/-- Whatever is read is filled, repeats no item in a lineage, nor one of the lineage above it, and
has no more than the levels that were left. -/
theorem rules_of_readNode {size levels : Nat} {lineage : List String} {s rest : List UInt8}
    {r : Route} (h : readNode size levels lineage s = .ok (r, rest)) :
    r.Filled ∧ r.Lineal ∧ r.depth ≤ levels ∧ ∀ x ∈ r.items, x ∉ lineage := by
  -- The lineage grows by the item at each level, so what is said of it carries over to the parts.
  induction levels generalizing lineage s rest r with
  | zero => cases h
  | succ n ih =>
    obtain ⟨i, c, left, left', hs, hi, hc, hr⟩ := readNode_succ_eq_ok_iff.1 h
    have hparts : ∃ ps, r = node i c ps ∧ ∀ p ∈ ps,
        p.Filled ∧ p.Lineal ∧ p.depth ≤ n ∧ ∀ x ∈ p.items, x ∉ i :: lineage := by
      rcases hr with ⟨-, rfl, -⟩ | ⟨inner, ps, -, hg, rfl⟩
      · exact ⟨[], rfl, List.forall_mem_nil _⟩
      · exact ⟨ps, rfl, forall_mem_of_readGroup (fun _ _ _ => ih) hg⟩
    obtain ⟨ps, rfl, hps⟩ := hparts
    refine ⟨filled_node_iff.2 ⟨(readSegment_eq_ok_iff.1 hs).1, ne_empty_of_readChoice hc,
      fun p hp => (hps p hp).1⟩, lineal_node_iff.2 fun p hp => ⟨?_, (hps p hp).2.1⟩,
      depth_node_le_iff.2 fun p hp => (hps p hp).2.2.1, ?_⟩
    · exact fun hx => (hps p hp).2.2.2 i hx List.mem_cons_self
    · intro x hx
      rcases List.mem_cons.1 hx with rfl | hx
      · exact hi
      · obtain ⟨p, hp, hxp⟩ := mem_itemsOfAll_iff.1 hx
        exact fun hl => (hps p hp).2.2.2 x hxp (List.mem_cons_of_mem i hl)

/-- Every route that a text is read as keeps the rules. -/
theorem rules_of_decode? {s : String} {r : Route} (h : decode? s = some r) :
    r.Filled ∧ r.Lineal ∧ r.depth ≤ maxDepth := by
  obtain ⟨hf, hl, hd, -⟩ := rules_of_readNode (decode?_eq_some_iff.1 h)
  exact ⟨hf, hl, hd⟩

/-! ## What has a derivation is read -/

/-- Where a node ends: nothing follows, a closing parenthesis or the mark of the next part. -/
def AtEnd (rest : List UInt8) : Prop := ∀ b ∈ rest.head?, b = byteOf ')' ∨ b = byteOf '|'

theorem atEnd_nil : AtEnd [] := nofun

theorem atEnd_close (rest : List UInt8) : AtEnd (byteOf ')' :: rest) := by
  rintro b ⟨⟩
  exact Or.inl rfl

theorem atEnd_next (rest : List UInt8) : AtEnd (byteOf '|' :: rest) := by
  rintro b ⟨⟩
  exact Or.inr rfl

theorem AtEnd.atMark {rest : List UInt8} (h : AtEnd rest) : AtMark rest := by
  intro b hb
  rcases h b hb with rfl | rfl <;> decide

/-- A node ends before a mark that could carry it on. -/
theorem AtEnd.eat?_eq_none {rest : List UInt8} (h : AtEnd rest) {b : UInt8}
    (hclose : b ≠ byteOf ')') (hnext : b ≠ byteOf '|') : eat? b rest = none := by
  refine eat?_eq_none_iff.2 fun hb => ?_
  rcases h b hb with hc | hn
  · exact hclose hc
  · exact hnext hn

/-- Behind a choice stand its group or what follows the node, so it is read to its end. -/
theorem DerivesGroup.atMark_append {follow : Option UInt8} {w rest : List UInt8}
    {ps : List Route} (h : DerivesGroup follow w ps) (hend : AtEnd rest) : AtMark (w ++ rest) := by
  cases h with
  | absent => exact hend.atMark
  | closed _ => exact atMark_cons.2 (by decide)
  | bare _ _ => exact atMark_cons.2 (by decide)

theorem DerivesGroup.eat?_choice_append {follow : Option UInt8} {w rest : List UInt8}
    {ps : List Route} (h : DerivesGroup follow w ps) (hend : AtEnd rest) :
    eat? (byteOf '>') (w ++ rest) = none := by
  cases h with
  | absent => exact hend.eat?_eq_none (by decide) (by decide)
  | closed _ => exact eat?_cons_of_ne (by decide) _
  | bare _ _ => exact eat?_cons_of_ne (by decide) _

theorem IsChoice.atMark_append {w rest : List UInt8} {choice : Option String}
    (h : IsChoice w choice) (hrest : AtMark rest) : AtMark (w ++ rest) := by
  cases h with
  | absent => exact hrest
  | present _ => exact atMark_cons.2 (by decide)

theorem readChoice_of_isChoice (size : Nat) {w rest : List UInt8} {choice : Option String}
    (h : IsChoice w choice) (hmark : AtMark rest) (hnone : eat? (byteOf '>') rest = none) :
    readChoice size (w ++ rest) = .ok (choice, rest) := by
  cases h with
  | absent => exact readChoice_eq_ok_iff.2 (Or.inl ⟨hnone, rfl, rfl⟩)
  | @present w text hw =>
    have hread : readSegment size (w ++ rest) = .ok (text, rest) :=
      readSegment_iff_isSegment.2 ⟨w, rfl, hw, hmark⟩
    exact readChoice_eq_ok_iff.2 (Or.inr ⟨_, text, eat?_cons_self _ _, hread, rfl⟩)

section Complete

variable {part : List UInt8 → Except DecodeFault (Route × List UInt8)}

/-- Derived parts are read in front of what ends them. -/
theorem readParts_of_derivesParts {ps : List Route}
    (hpart : ∀ p ∈ ps, ∀ w rest, Derives rest.head? w p → AtEnd rest →
      part (w ++ rest) = .ok (p, rest))
    {w rest : List UInt8} (h : DerivesParts rest.head? w ps) (hend : AtEnd rest)
    (hnext : rest.head? ≠ some (byteOf '|')) {bound : Nat} (hb : w.length ≤ bound) :
    readParts part bound (w ++ rest) = .ok (ps, rest) := by
  induction ps generalizing w bound with
  | nil => cases h
  | cons p ps ih =>
    have hp := hpart p List.mem_cons_self
    cases h with
    | last h =>
      cases bound with
      | zero => exact readParts_zero_eq_ok_iff.2 ⟨p, hp w rest h hend, rfl⟩
      | succ bound =>
        exact readParts_succ_eq_ok_iff.2
          ⟨p, rest, hp w rest h hend, Or.inl ⟨eat?_eq_none_iff.2 hnext, rfl, rfl⟩⟩
    | @cons _ v ws _ _ h hrest =>
      -- The part ends at the mark, so what is derived behind it is left.
      have hfirst : part (v ++ byteOf '|' :: (ws ++ rest)) =
          .ok (p, byteOf '|' :: (ws ++ rest)) := hp v _ h (atEnd_next _)
      rw [List.length_append, List.length_cons] at hb
      obtain ⟨bound, rfl⟩ : ∃ n, bound = n + 1 := ⟨bound - 1, by omega⟩
      have hothers : readParts part bound (ws ++ rest) = .ok (ps, rest) :=
        ih (fun q hq => hpart q (List.mem_cons_of_mem p hq)) hrest (by omega)
      rw [List.append_assoc, List.cons_append]
      exact readParts_succ_eq_ok_iff.2
        ⟨p, _, hfirst, Or.inr ⟨_, ps, eat?_cons_self _ _, hothers, rfl⟩⟩

/-- A derived group is read behind its mark, unless it is none. -/
theorem readGroup_of_derivesGroup (size : Nat) {ps : List Route}
    (hpart : ∀ p ∈ ps, ∀ w rest, Derives rest.head? w p → AtEnd rest →
      part (w ++ rest) = .ok (p, rest))
    {w rest : List UInt8} (h : DerivesGroup rest.head? w ps) (hend : AtEnd rest) :
    (w = [] ∧ ps = []) ∨ ∃ inner, eat? (byteOf '~') (w ++ rest) = some inner ∧
      readGroup size part inner = .ok (ps, rest) := by
  cases h with
  | absent => exact Or.inl ⟨rfl, rfl⟩
  | @closed _ v _ h =>
    refine Or.inr ⟨byteOf '(' :: (v ++ byteOf ')' :: rest), ?_, ?_⟩
    · rw [List.cons_append, eat?_cons_self, List.cons_append, List.append_assoc,
        List.singleton_append]
    · have hparts : DerivesParts (byteOf ')' :: rest).head? v ps := h
      have hnext : (byteOf ')' :: rest).head? ≠ some (byteOf '|') := by
        rw [List.head?_cons]
        decide
      have hread : readParts part (v ++ byteOf ')' :: rest).length (v ++ byteOf ')' :: rest) =
          .ok (ps, byteOf ')' :: rest) := by
        refine readParts_of_derivesParts hpart hparts (atEnd_close rest) hnext ?_
        rw [List.length_append]
        exact Nat.le_add_right _ _
      exact readGroup_eq_ok_iff.2
        (Or.inr ⟨_, _, eat?_cons_self _ _, hread, eat?_cons_self _ _⟩)
  | @bare _ v _ hgreedy h =>
    refine Or.inr ⟨v ++ rest, eat?_cons_self _ _, readGroup_eq_ok_iff.2 (Or.inl ⟨?_, ?_⟩)⟩
    · -- Parts start with a byte of an item, so they are not taken for a group.
      obtain ⟨b, t, rfl, hmark⟩ := h.eq_cons
      refine eat?_eq_none_iff.2 fun hb => ?_
      cases hb
      exact absurd hmark (by decide)
    · refine readParts_of_derivesParts hpart h hend hgreedy ?_
      rw [List.length_append]
      exact Nat.le_add_right _ _

end Complete

/-- A derived node that keeps the rules is read, in front of whatever can stand behind it. -/
theorem readNode_of_derives (size : Nat) (r : Route) (hlineal : r.Lineal) {levels : Nat}
    {lineage : List String} (hdepth : r.depth ≤ levels) (hitems : ∀ x ∈ r.items, x ∉ lineage)
    {w rest : List UInt8} (h : Derives rest.head? w r) (hend : AtEnd rest) :
    readNode size levels lineage (w ++ rest) = .ok (r, rest) := by
  induction r using induct generalizing levels lineage w rest with
  | hnode i c ps ih =>
    obtain ⟨n, rfl⟩ : ∃ n, levels = n + 1 :=
      ⟨levels - 1, by have := depth_pos (node i c ps); omega⟩
    -- Each part keeps the rules below the item, so it is read there.
    have hparts : ∀ p ∈ ps, ∀ w rest, Derives rest.head? w p → AtEnd rest →
        readNode size n (i :: lineage) (w ++ rest) = .ok (p, rest) := by
      intro p hp w rest hw hend
      obtain ⟨hi, hp'⟩ := lineal_node_iff.1 hlineal p hp
      refine ih p hp hp' (depth_node_le_iff.1 hdepth p hp) (fun x hx => ?_) hw hend
      rintro (_ | ⟨_, hx'⟩)
      · exact hi hx
      · exact hitems x (List.mem_cons_of_mem i (mem_itemsOfAll_iff.2 ⟨p, hp, hx⟩)) hx'
    cases h with
    | @node _ segment choice group _ _ _ hitem hchoice hgroup =>
      have hmark := hgroup.atMark_append hend
      have hread : readSegment size (segment ++ (choice ++ (group ++ rest))) =
          .ok (i, choice ++ (group ++ rest)) :=
        readSegment_iff_isSegment.2 ⟨segment, rfl, hitem, hchoice.atMark_append hmark⟩
      have hchosen : readChoice size (choice ++ (group ++ rest)) = .ok (c, group ++ rest) :=
        readChoice_of_isChoice size hchoice hmark (hgroup.eat?_choice_append hend)
      rw [List.append_assoc, List.append_assoc]
      refine readNode_succ_eq_ok_iff.2
        ⟨i, c, _, _, hread, hitems i List.mem_cons_self, hchosen, ?_⟩
      rcases readGroup_of_derivesGroup size hparts hgroup hend with ⟨rfl, rfl⟩ | ⟨inner, he, hg⟩
      · exact Or.inl ⟨hend.eat?_eq_none (by decide) (by decide), rfl, rfl⟩
      · exact Or.inr ⟨inner, ps, he, hg, rfl⟩

/-! ## The texts of routes -/

/-- A text is read as a route exactly if the route is the tree of a derivation of its bytes, no item
repeats along a lineage and there are at most `maxDepth` levels. -/
theorem decode_eq_ok_iff (s : String) (r : Route) :
    decode s = .ok r ↔ Derives none (Text.bytes s) r ∧ r.Lineal ∧ r.depth ≤ maxDepth := by
  rw [decode, decodeBytes_eq_ok_iff]
  constructor
  · intro h
    obtain ⟨w, hs, hw⟩ := derives_of_readNode h
    rw [List.append_nil] at hs
    obtain ⟨-, hlineal, hdepth, -⟩ := rules_of_readNode h
    exact ⟨hs ▸ hw, hlineal, hdepth⟩
  · rintro ⟨h, hlineal, hdepth⟩
    have hread : readNode (Text.bytes s).length maxDepth [] (Text.bytes s ++ []) = .ok (r, []) :=
      readNode_of_derives _ r hlineal hdepth (fun _ _ => List.not_mem_nil) h atEnd_nil
    rwa [List.append_nil] at hread

end RecipePlanner.Route

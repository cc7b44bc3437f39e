import RecipePlanner.Proofs.Route.RoundTrip

/-!
# Different routes have different texts

No route has the text of another one, not even among the routes that are never read back: those
with empty texts, with an item below itself or with too many levels (`unambiguous_encode`). What
is written for a node tells where the node ends, in front of everything that can stand behind it
(`readable`): a segment, empty or not, goes on up to a mark, a choice is there exactly if its mark
is, and parts without parentheses stand only where no further part can follow. A list of parts
never begins with a parenthesis, so a parenthesis tells that the parts of a node are grouped.
-/

namespace RecipePlanner.Route

/-! ## Segments and choices -/

/-- A segment goes on up to a mark, so it is told apart from what follows it. -/
theorem eq_of_segment_append {text text' : String} {rest rest' : List UInt8} (hrest : AtMark rest)
    (hrest' : AtMark rest') (h : segment text ++ rest = segment text' ++ rest') :
    text = text' ∧ rest = rest' := by
  have hread : unescape 0 (segment text ++ rest) = .ok (Text.bytes text, rest) :=
    unescape_eq_ok_iff.2 ⟨_, rfl, escaped_segment text, hrest⟩
  have hread' : unescape 0 (segment text' ++ rest') = .ok (Text.bytes text', rest') :=
    unescape_eq_ok_iff.2 ⟨_, rfl, escaped_segment text', hrest'⟩
  rw [h, hread', Except.ok.injEq, Prod.mk.injEq] at hread
  exact ⟨(Text.bytes_injective hread.1).symm, hread.2.symm⟩

theorem atMark_choiceBytes_append (c : Option String) {rest : List UInt8} (h : AtMark rest) :
    AtMark (choiceBytes c ++ rest) := by
  cases c with
  | none => exact h
  | some text => exact atMark_cons.2 (by decide)

/-- A choice is there exactly if its mark is, and it goes on up to the next mark. -/
theorem eq_of_choiceBytes_append {c c' : Option String} {rest rest' : List UInt8}
    (hrest : AtMark rest) (hrest' : AtMark rest') (hnone : eat? (byteOf '>') rest = none)
    (hnone' : eat? (byteOf '>') rest' = none)
    (h : choiceBytes c ++ rest = choiceBytes c' ++ rest') : c = c' ∧ rest = rest' := by
  cases c with
  | none =>
    cases c' with
    | none => exact ⟨rfl, h⟩
    | some text' =>
      have hmark : rest = byteOf '>' :: (segment text' ++ rest') := h
      rw [hmark, eat?_cons_self] at hnone
      cases hnone
  | some text =>
    cases c' with
    | none =>
      have hmark : byteOf '>' :: (segment text ++ rest) = rest' := h
      rw [← hmark, eat?_cons_self] at hnone'
      cases hnone'
    | some text' =>
      obtain ⟨-, h⟩ := List.cons_eq_cons.1 h
      obtain ⟨rfl, rfl⟩ := eq_of_segment_append hrest hrest' h
      exact ⟨rfl, rfl⟩

/-! ## What can stand behind a node -/

/-- What can stand behind a node: nothing, a closing parenthesis, or the mark of the next part, the
last one only if the parts of the node are grouped. -/
structure CanFollow (grouped : Bool) (rest : List UInt8) : Prop where
  atEnd : AtEnd rest
  greedy : grouped = false → rest.head? ≠ some (byteOf '|')

theorem canFollow_nil (grouped : Bool) : CanFollow grouped [] :=
  ⟨atEnd_nil, fun _ => nofun⟩

theorem canFollow_close (grouped : Bool) (rest : List UInt8) :
    CanFollow grouped (byteOf ')' :: rest) := by
  refine ⟨atEnd_close rest, fun _ => ?_⟩
  rw [List.head?_cons]
  decide

theorem canFollow_next (rest : List UInt8) : CanFollow true (byteOf '|' :: rest) :=
  ⟨atEnd_next rest, Bool.noConfusion⟩

theorem not_canFollow_next {rest : List UInt8} : ¬ CanFollow false (byteOf '|' :: rest) :=
  fun h => h.greedy rfl rfl

/-! ## No parts begin with a parenthesis -/

section NoOpen

variable {rest : List UInt8} (h : eat? (byteOf '(') rest = none)

include h

theorem eat?_open_segment_append (text : String) :
    eat? (byteOf '(') (segment text ++ rest) = none := by
  by_cases hempty : segment text = []
  · rw [hempty]
    exact h
  · obtain ⟨b, w, hb, hmark⟩ := (escaped_segment text).eq_cons hempty
    rw [hb]
    apply eat?_cons_of_ne
    rintro rfl
    cases hmark

theorem eat?_open_nodeBytes_append (grouped : Bool) (r : Route) :
    eat? (byteOf '(') (nodeBytes grouped r ++ rest) = none := by
  obtain ⟨i, c, ps⟩ := r
  rw [nodeBytes_node, List.append_assoc, List.append_assoc]
  apply eat?_open_segment_append
  cases c with
  | some text => exact eat?_cons_of_ne (by decide) _
  | none =>
    rw [groupBytes]
    cases ps with
    | nil => exact h
    | cons p ps => cases grouped <;> exact eat?_cons_of_ne (by decide) _

theorem eat?_open_partsBytes_append (ps : List Route) :
    eat? (byteOf '(') (partsBytes ps ++ rest) = none := by
  cases ps with
  | nil => exact h
  | cons p ps =>
    cases ps with
    | nil =>
      rw [partsBytes_singleton]
      exact eat?_open_nodeBytes_append h false p
    | cons q qs =>
      rw [partsBytes_cons_cons, List.append_assoc]
      apply eat?_open_nodeBytes_append
      exact eat?_cons_of_ne (by decide) _

end NoOpen

/-! ## Parts and nodes -/

/-- The node is told apart from whatever follows it, and so is what is written for any other one. -/
def Readable (p : Route) : Prop :=
  ∀ q grouped grouped' rest rest', CanFollow grouped rest → CanFollow grouped' rest' →
    nodeBytes grouped p ++ rest = nodeBytes grouped' q ++ rest' → p = q ∧ rest = rest'

/-- Parts are told apart one by one: a part with another one behind it is in front of a mark, which
cannot follow the last part. -/
theorem eq_of_partsBytes_append {ps qs : List Route} (hread : ∀ p ∈ ps, Readable p)
    (hps : ps ≠ []) (hqs : qs ≠ []) {rest rest' : List UInt8} (hrest : CanFollow false rest)
    (hrest' : CanFollow false rest') (h : partsBytes ps ++ rest = partsBytes qs ++ rest') :
    ps = qs ∧ rest = rest' := by
  induction ps generalizing qs with
  | nil => exact absurd rfl hps
  | cons p ps ih =>
    obtain ⟨hp, hrestRead⟩ := List.forall_mem_cons.1 hread
    cases ps with
    | nil =>
      rw [partsBytes_singleton] at h
      match qs, hqs with
      | [q], _ =>
        rw [partsBytes_singleton] at h
        obtain ⟨rfl, rfl⟩ := hp q _ _ _ _ hrest hrest' h
        exact ⟨rfl, rfl⟩
      | q :: q' :: qs, _ =>
        rw [partsBytes_cons_cons, List.append_assoc, List.cons_append] at h
        obtain ⟨-, rfl⟩ := hp q _ _ _ _ hrest (canFollow_next _) h
        exact absurd hrest not_canFollow_next
    | cons p' ps =>
      rw [partsBytes_cons_cons, List.append_assoc, List.cons_append] at h
      match qs, hqs with
      | [q], _ =>
        rw [partsBytes_singleton] at h
        obtain ⟨-, rfl⟩ := hp q _ _ _ _ (canFollow_next _) hrest' h
        exact absurd hrest' not_canFollow_next
      | q :: q' :: qs, _ =>
        rw [partsBytes_cons_cons, List.append_assoc, List.cons_append] at h
        obtain ⟨rfl, hbehind⟩ := hp q _ _ _ _ (canFollow_next _) (canFollow_next _) h
        obtain ⟨-, hbehind⟩ := List.cons_eq_cons.1 hbehind
        have hothers : p' :: ps = q' :: qs ∧ rest = rest' :=
          ih hrestRead (List.cons_ne_nil _ _) (List.cons_ne_nil _ _) hbehind
        exact ⟨congrArg (p :: ·) hothers.1, hothers.2⟩

theorem groupBytes_cons_append (grouped : Bool) (p : Route) (ps : List Route)
    (rest : List UInt8) :
    groupBytes grouped (p :: ps) ++ rest =
      byteOf '~' ::
        if grouped then byteOf '(' :: (partsBytes (p :: ps) ++ byteOf ')' :: rest)
        else partsBytes (p :: ps) ++ rest := by
  cases grouped with
  | true =>
    rw [if_pos rfl, List.append_cons]
    rfl
  | false => rfl

/-- A node without parts is not in front of the mark of parts. -/
theorem CanFollow.ne_groupBytes_cons_append {grouped grouped' : Bool} {rest rest' : List UInt8}
    (h : CanFollow grouped rest) (p : Route) (ps : List Route) :
    rest ≠ groupBytes grouped' (p :: ps) ++ rest' := by
  intro hrest
  have hnone : eat? (byteOf '~') rest = none := h.atEnd.eat?_eq_none (by decide) (by decide)
  rw [hrest, groupBytes_cons_append, eat?_cons_self] at hnone
  cases hnone

/-- Parts in parentheses are not taken for parts without. -/
theorem ne_partsBytes_append {grouped : Bool} {rest' : List UInt8} (h : CanFollow grouped rest')
    (inner : List UInt8) (qs : List Route) : byteOf '(' :: inner ≠ partsBytes qs ++ rest' := by
  intro hopen
  have hrest' : eat? (byteOf '(') rest' = none := h.atEnd.eat?_eq_none (by decide) (by decide)
  have hnone := eat?_open_partsBytes_append hrest' qs
  rw [← hopen, eat?_cons_self] at hnone
  cases hnone

/-- The parts of a node are told apart from what follows the node. -/
theorem eq_of_groupBytes_append {ps qs : List Route} (hread : ∀ p ∈ ps, Readable p)
    {grouped grouped' : Bool} {rest rest' : List UInt8} (hrest : CanFollow grouped rest)
    (hrest' : CanFollow grouped' rest')
    (h : groupBytes grouped ps ++ rest = groupBytes grouped' qs ++ rest') :
    ps = qs ∧ rest = rest' := by
  match ps, qs with
  | [], [] => exact ⟨rfl, h⟩
  | [], q :: qs => exact absurd h (hrest.ne_groupBytes_cons_append q qs)
  | p :: ps, [] => exact absurd h.symm (hrest'.ne_groupBytes_cons_append p ps)
  | p :: ps, q :: qs =>
    rw [groupBytes_cons_append, groupBytes_cons_append] at h
    obtain ⟨-, h⟩ := List.cons_eq_cons.1 h
    have hps := List.cons_ne_nil p ps
    have hqs := List.cons_ne_nil q qs
    match grouped, grouped' with
    | true, true =>
      obtain ⟨-, h⟩ := List.cons_eq_cons.1 h
      obtain ⟨hparts, hclose⟩ :=
        eq_of_partsBytes_append hread hps hqs (canFollow_close _ _) (canFollow_close _ _) h
      exact ⟨hparts, (List.cons_eq_cons.1 hclose).2⟩
    | true, false => exact absurd h (ne_partsBytes_append hrest' _ _)
    | false, true => exact absurd h.symm (ne_partsBytes_append hrest _ _)
    | false, false => exact eq_of_partsBytes_append hread hps hqs hrest hrest' h

theorem atMark_groupBytes_append (grouped : Bool) (ps : List Route) {rest : List UInt8}
    (h : AtMark rest) : AtMark (groupBytes grouped ps ++ rest) := by
  cases ps with
  | nil => exact h
  | cons p ps =>
    rw [groupBytes_cons_append]
    exact atMark_cons.2 (by decide)

theorem eat?_choice_groupBytes_append (grouped : Bool) (ps : List Route) {rest : List UInt8}
    (h : AtEnd rest) : eat? (byteOf '>') (groupBytes grouped ps ++ rest) = none := by
  cases ps with
  | nil => exact h.eat?_eq_none (by decide) (by decide)
  | cons p ps =>
    rw [groupBytes_cons_append]
    exact eat?_cons_of_ne (by decide) _

/-- What is written for a node tells where the node ends. -/
theorem readable (p : Route) : Readable p := by
  induction p using induct with
  | hnode i c ps ih =>
    intro q grouped grouped' rest rest' hrest hrest' h
    obtain ⟨j, d, qs⟩ := q
    have hgroup := atMark_groupBytes_append grouped ps hrest.atEnd.atMark
    have hgroup' := atMark_groupBytes_append grouped' qs hrest'.atEnd.atMark
    simp only [nodeBytes_node, List.append_assoc] at h
    -- Segment, choice and parts are taken off the front one after the other.
    obtain ⟨rfl, hchoice⟩ := eq_of_segment_append (atMark_choiceBytes_append c hgroup)
      (atMark_choiceBytes_append d hgroup') h
    obtain ⟨rfl, hparts⟩ := eq_of_choiceBytes_append hgroup hgroup'
      (eat?_choice_groupBytes_append grouped ps hrest.atEnd)
      (eat?_choice_groupBytes_append grouped' qs hrest'.atEnd) hchoice
    obtain ⟨rfl, rfl⟩ := eq_of_groupBytes_append ih hrest hrest' hparts
    exact ⟨rfl, rfl⟩

/-! ## Texts of routes -/

theorem encode_injective {p q : Route} (h : encode p = encode q) : p = q := by
  have hbytes : nodeBytes false p ++ [] = nodeBytes false q ++ [] := by
    rw [← bytes_encode, ← bytes_encode, h]
  exact (readable p q _ _ _ _ (canFollow_nil false) (canFollow_nil false) hbytes).1

/-- The characters of the bytes that are written are letters, digits and eleven others. -/
theorem isAlphanum_or_mem_of_isWritten : ∀ b : UInt8, isWritten b = true →
    (Char.ofNat b.toNat).isAlphanum = true ∨
      Char.ofNat b.toNat ∈ ['_', '-', '.', ':', '/', '%', '>', '~', '|', '(', ')'] :=
  Text.forall_byte (by decide +kernel)

/-- Different routes have different texts, whatever items and choices they have and however deep
they are, and every text is made of ASCII letters and digits and of `_`, `-`, `.`, `:`, `/`, `%`,
`>`, `~`, `|`, `(`, `)`. -/
theorem unambiguous_encode :
    (∀ p q : Route, encode p = encode q ↔ p = q) ∧
    ∀ r : Route, ∀ c ∈ (encode r).toList,
      c.isAlphanum = true ∨ c ∈ ['_', '-', '.', ':', '/', '%', '>', '~', '|', '(', ')'] := by
  refine ⟨fun p q => ⟨encode_injective, fun h => h ▸ rfl⟩, ?_⟩
  intro r c hc
  rw [encode, String.toList_ofList] at hc
  obtain ⟨b, hb, rfl⟩ := List.mem_map.1 hc
  exact isAlphanum_or_mem_of_isWritten b (isWritten_of_mem_nodeBytes r hb)

/-- Of an empty text and an empty choice nothing is written but marks, and no other route has
them. -/
theorem unambiguous_encode_torch :
    let torch := node "torch" none [ofItem "", chosen "é" ""]
    encode torch = "torch~|%C3%A9>" ∧
      (∀ r, encode r = "torch~|%C3%A9>" ↔ r = torch) ∧
      ('%'.isAlphanum = true ∨
        '%' ∈ ['_', '-', '.', ':', '/', '%', '>', '~', '|', '(', ')']) := by
  intro torch
  have htext : encode torch = "torch~|%C3%A9>" := by decide +kernel
  have hmem : '%' ∈ (encode torch).toList := by
    rw [htext]
    decide
  refine ⟨htext, fun r => ?_, unambiguous_encode.2 torch '%' hmem⟩
  rw [← htext]
  exact unambiguous_encode.1 r torch

end RecipePlanner.Route

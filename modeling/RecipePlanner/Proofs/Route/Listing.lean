import RecipePlanner.Proofs.Route.Changes

/-!
# Routes as listings

The listing of a route has one line for each node, with its level, item and choice, and each node
stands before what is below it. A route is determined by its listing (`listing_injective`): the
levels say where a node ends. What is asked of a route and what is done to it can therefore be said
of lines. The items are those of the lines (`map_item_listing`), a route is complete exactly if each
line has a choice (`isComplete_iff_listing`), and `select` records a choice in one line
(`listing_select`).
-/

namespace RecipePlanner.Route

/-- A node as it stands in a listing. -/
structure Line where
  level : Nat
  item : String
  choice : Option String
  deriving DecidableEq, Repr

mutual

/-- The lines of a route whose root is at the given level. -/
def listingFrom (level : Nat) : Route → List Line
  | node i c ps => ⟨level, i, c⟩ :: listingOfAll (level + 1) ps

/-- The lines of some routes whose roots are at the given level. -/
def listingOfAll (level : Nat) : List Route → List Line
  | [] => []
  | p :: ps => listingFrom level p ++ listingOfAll level ps

end

/-- The nodes of a route, each before what is below it. The root is at level 1. -/
def listing (r : Route) : List Line := listingFrom 1 r

/-! ## What the lines tell -/

theorem listingOfAll_append (level : Nat) (ps qs : List Route) :
    listingOfAll level (ps ++ qs) = listingOfAll level ps ++ listingOfAll level qs := by
  induction ps with
  | nil => rfl
  | cons p ps ih => rw [List.cons_append, listingOfAll, listingOfAll, ih, List.append_assoc]

theorem mem_listingOfAll_iff {level : Nat} {l : Line} {ps : List Route} :
    l ∈ listingOfAll level ps ↔ ∃ p ∈ ps, l ∈ p.listingFrom level := by
  induction ps with
  | nil => simp [listingOfAll]
  | cons p ps ih => rw [listingOfAll, List.mem_append, ih, List.exists_mem_cons_iff]

/-- The items of the lines are those of the route, whatever the level of its root. -/
theorem map_item_listingFrom (level : Nat) (r : Route) :
    (r.listingFrom level).map Line.item = r.items := by
  induction r using induct generalizing level with
  | hnode i c ps ih =>
    rw [listingFrom, items, List.map_cons, List.cons.injEq]
    refine ⟨rfl, ?_⟩
    induction ps with
    | nil => rfl
    | cons p ps ihps =>
      obtain ⟨hp, hps⟩ := List.forall_mem_cons.1 ih
      rw [listingOfAll, itemsOfAll, List.map_append, hp, ihps hps]

theorem map_item_listing (r : Route) : r.listing.map Line.item = r.items :=
  map_item_listingFrom 1 r

theorem areComplete_iff {ps : List Route} :
    areComplete ps = true ↔ ∀ p ∈ ps, p.isComplete = true := by
  induction ps with
  | nil => simp [areComplete]
  | cons p ps ih => rw [areComplete, Bool.and_eq_true, ih, List.forall_mem_cons]

theorem isComplete_iff_listingFrom (level : Nat) (r : Route) :
    r.isComplete = true ↔ ∀ l ∈ r.listingFrom level, l.choice.isSome = true := by
  induction r using induct generalizing level with
  | hnode i c ps ih =>
    rw [isComplete, Bool.and_eq_true, areComplete_iff, listingFrom, List.forall_mem_cons]
    refine and_congr_right fun _ => ?_
    constructor
    · intro h l hl
      obtain ⟨p, hp, hlp⟩ := mem_listingOfAll_iff.1 hl
      exact (ih p hp _).1 (h p hp) l hlp
    · intro h p hp
      refine (ih p hp (level + 1)).2 fun l hl => ?_
      exact h l (mem_listingOfAll_iff.2 ⟨p, hp, hl⟩)

/-- A route is complete exactly if there is a choice in each line of its listing. -/
theorem isComplete_iff_listing (r : Route) :
    r.isComplete = true ↔ ∀ l ∈ r.listing, l.choice.isSome = true :=
  isComplete_iff_listingFrom 1 r

/-! ## A route is determined by its listing -/

/-- The lines cannot go on below a node of this level: they are none, or the first one is not
deeper. -/
def EndsAt (level : Nat) (rest : List Line) : Prop := ∀ l ∈ rest.head?, l.level ≤ level

theorem EndsAt.mono {level deeper : Nat} {rest : List Line} (h : EndsAt level rest)
    (hle : level ≤ deeper) : EndsAt deeper rest :=
  fun l hl => Nat.le_trans (h l hl) hle

theorem endsAt_nil (level : Nat) : EndsAt level [] := nofun

theorem EndsAt.append {level : Nat} {rest rest' : List Line} (h : EndsAt level rest)
    (h' : EndsAt level rest') : EndsAt level (rest ++ rest') := by
  cases rest with
  | nil => exact h'
  | cons l ls => exact h

/-- The next part begins at the level of the parts before it, so these end there. -/
theorem endsAt_listingOfAll_append {level : Nat} {rest : List Line} (h : EndsAt level rest)
    (ps : List Route) : EndsAt level (listingOfAll level ps ++ rest) := by
  cases ps with
  | nil => exact h
  | cons p ps =>
    intro l hl
    cases p with
    | node i c qs =>
      obtain rfl : (⟨level, i, c⟩ : Line) = l := Option.mem_some.1 hl
      exact Nat.le_refl level

/-- Lines that end at a level do not begin with a part below it. -/
theorem not_endsAt_listingOfAll_cons {level : Nat} {p : Route} {ps : List Route}
    {rest : List Line} : ¬ EndsAt level (listingOfAll (level + 1) (p :: ps) ++ rest) := by
  intro h
  cases p with
  | node i c qs => exact Nat.not_succ_le_self level (h ⟨level + 1, i, c⟩ rfl)

/-- The lines of a node are told apart from those that follow it. -/
theorem eq_of_listingFrom_append (r : Route) {q : Route} {level : Nat} {rest rest' : List Line}
    (hrest : EndsAt level rest) (hrest' : EndsAt level rest')
    (h : r.listingFrom level ++ rest = q.listingFrom level ++ rest') : r = q ∧ rest = rest' := by
  induction r using induct generalizing q level rest rest' with
  | hnode i c ps ih =>
    cases q with
    | node j d qs =>
      rw [listingFrom, listingFrom, List.cons_append, List.cons_append, List.cons.injEq] at h
      obtain ⟨hline, h⟩ := h
      cases hline
      -- The parts one after the other: each ends where the next one or the rest begins.
      suffices hparts : ps = qs ∧ rest = rest' from ⟨by rw [hparts.1], hparts.2⟩
      induction ps generalizing qs with
      | nil =>
        cases qs with
        | nil => exact ⟨rfl, h⟩
        | cons q qs =>
          have hfirst : rest = listingOfAll (level + 1) (q :: qs) ++ rest' := h
          exact absurd (hfirst ▸ hrest) not_endsAt_listingOfAll_cons
      | cons p ps ihps =>
        obtain ⟨hp, hps⟩ := List.forall_mem_cons.1 ih
        cases qs with
        | nil =>
          have hfirst : listingOfAll (level + 1) (p :: ps) ++ rest = rest' := h
          exact absurd (hfirst ▸ hrest') not_endsAt_listingOfAll_cons
        | cons q qs =>
          rw [listingOfAll, listingOfAll, List.append_assoc, List.append_assoc] at h
          have hends := endsAt_listingOfAll_append (hrest.mono (Nat.le_succ level)) ps
          have hends' := endsAt_listingOfAll_append (hrest'.mono (Nat.le_succ level)) qs
          obtain ⟨rfl, hbehind⟩ := hp hends hends' h
          obtain ⟨rfl, hrest⟩ := ihps hps qs hbehind
          exact ⟨rfl, hrest⟩

/-- Routes with the same listing are the same. -/
theorem listing_injective {r q : Route} (h : r.listing = q.listing) : r = q := by
  have happend : r.listingFrom 1 ++ [] = q.listingFrom 1 ++ [] := by
    rw [List.append_nil, List.append_nil]
    exact h
  exact (eq_of_listingFrom_append r (endsAt_nil 1) (endsAt_nil 1) happend).1

/-! ## Recording a choice -/

/-- The lines with a choice recorded: in the first line for the item, else in a new line behind the
others, that of a part of the root. -/
def record (item choice : String) : List Line → List Line
  | [] => [⟨2, item, some choice⟩]
  | l :: ls =>
    if l.item = item then { l with choice := some choice } :: ls else l :: record item choice ls

section Record

variable {item choice : String}

theorem record_append_of_not_mem {before : List Line} (h : item ∉ before.map Line.item)
    (rest : List Line) :
    record item choice (before ++ rest) = before ++ record item choice rest := by
  induction before with
  | nil => rfl
  | cons l ls ih =>
    rw [List.map_cons, List.mem_cons, not_or] at h
    rw [List.cons_append, record, if_neg (Ne.symm h.1), ih h.2, List.cons_append]

/-- A choice for an item that has no line comes in a new line at the end. -/
theorem record_of_not_mem {ls : List Line} (h : item ∉ ls.map Line.item) :
    record item choice ls = ls ++ [⟨2, item, some choice⟩] := by
  have happend : record item choice (ls ++ []) = ls ++ record item choice [] :=
    record_append_of_not_mem h []
  rwa [List.append_nil] at happend

/-- Afterwards there are the items that were there, and the one with the choice. -/
theorem mem_map_item_record {ls : List Line} {x : String} :
    x ∈ (record item choice ls).map Line.item ↔ x = item ∨ x ∈ ls.map Line.item := by
  induction ls with
  | nil => simp [record]
  | cons l ls ih =>
    rw [record]
    split
    · next h => simp [h]
    · rw [List.map_cons, List.mem_cons, ih, List.map_cons, List.mem_cons]
      exact or_left_comm

/-- The later of two choices for an item counts. -/
theorem record_record (ls : List Line) (item choice later : String) :
    record item later (record item choice ls) = record item later ls := by
  induction ls with
  | nil => simp [record]
  | cons l ls ih =>
    by_cases h : l.item = item
    · simp [record, h]
    · simp [record, h, ih]

/-- Choices for different items can be recorded in either order if one of the items has a line. -/
theorem record_comm {ls : List Line} {i j : String} (hij : i ≠ j) (hi : i ∈ ls.map Line.item)
    (c d : String) : record j d (record i c ls) = record i c (record j d ls) := by
  induction ls with
  | nil => cases hi
  | cons l ls ih =>
    by_cases hli : l.item = i
    · -- The other choice is recorded behind this line, before or after.
      have hlj : l.item ≠ j := fun hlj => hij (hli.symm.trans hlj)
      simp [record, hli, hij]
    · have hmem : i ∈ ls.map Line.item := List.mem_of_ne_of_mem (Ne.symm hli) hi
      by_cases hlj : l.item = j
      · have hji : j ≠ i := Ne.symm hij
        simp [record, hlj, hji]
      · simp [record, hli, hlj, ih hmem]

end Record

/-! ## The lines of the first node for an item -/

/-- `found` is the first node for its item in a route whose root is at `level`. Its own lines begin at
level `k`; the lines `before` them are for other items, and those `after` them do not go on below
it. -/
structure FirstNode (r : Route) (level : Nat) (found : Route) (before : List Line) (k : Nat)
    (after : List Line) : Prop where
  find : r.find? found.item = some found
  listing : r.listingFrom level = before ++ (found.listingFrom k ++ after)
  first : found.item ∉ before.map Line.item
  ends : EndsAt k after
  le : level ≤ k

theorem firstNode_root (r : Route) (level : Nat) : FirstNode r level r [] level [] where
  find := find?_of_item_eq rfl
  listing := (List.append_nil _).symm
  first := List.not_mem_nil
  ends := endsAt_nil level
  le := Nat.le_refl level

/-- The first node of a part is that of the node above if this and the parts before it do not have
the item. -/
theorem FirstNode.of_part {item : String} {choice : Option String} {parts parts' : List Route}
    {p found : Route} {level k : Nat} {before after : List Line} (hitem : item ≠ found.item)
    (hparts : ∀ q ∈ parts, found.item ∉ q.items) (h : FirstNode p (level + 1) found before k after) :
    FirstNode (node item choice (parts ++ p :: parts')) level found
      (⟨level, item, choice⟩ :: (listingOfAll (level + 1) parts ++ before)) k
      (after ++ listingOfAll (level + 1) parts') where
  find := find?_of_part hitem hparts h.find
  listing := by
    rw [listingFrom, listingOfAll_append, listingOfAll, h.listing]
    simp only [List.cons_append, List.append_assoc]
  first := by
    rw [List.map_cons, List.mem_cons, List.map_append, List.mem_append, not_or, not_or]
    refine ⟨Ne.symm hitem, ?_, h.first⟩
    intro hmem
    obtain ⟨l, hl, hitem⟩ := List.mem_map.1 hmem
    obtain ⟨q, hq, hlq⟩ := mem_listingOfAll_iff.1 hl
    apply hparts q hq
    rw [← map_item_listingFrom (level + 1) q, ← hitem]
    exact List.mem_map_of_mem hlq
  ends := by
    -- Behind the part comes another one, at a level that is not below the node.
    have hends : EndsAt (level + 1) (listingOfAll (level + 1) parts' ++ []) :=
      endsAt_listingOfAll_append (endsAt_nil _) parts'
    rw [List.append_nil] at hends
    exact h.ends.append (hends.mono h.le)
  le := Nat.le_of_succ_le h.le

/-- A change that keeps the item of a node leaves it the first node for the item, with the same lines
before and behind its own. -/
theorem Changed.exists_firstNode {f : Route → Route} {wanted : String} {old new : Route}
    (h : Changed f wanted old new) (hf : ∀ r, (f r).item = r.item) (level : Nat) :
    ∃ found before k after, found.item = wanted ∧ FirstNode old level found before k after ∧
      FirstNode new level (f found) before k after := by
  induction h generalizing level with
  | here choice parts =>
    exact ⟨_, [], level, [], rfl, firstNode_root _ level, firstNode_root _ level⟩
  | inPart hitem hparts _ ih =>
    obtain ⟨found, before, k, after, rfl, hold, hnew⟩ := ih (level + 1)
    refine ⟨found, _, k, _, rfl, hold.of_part hitem hparts, ?_⟩
    rw [← hf found] at hitem hparts
    exact hnew.of_part hitem hparts

theorem item_withChoice (choice : String) (r : Route) : (r.withChoice choice).item = r.item := by
  cases r with
  | node i c ps => rfl

theorem item_cleared (r : Route) : r.cleared.item = r.item := by
  cases r with
  | node i c ps => rfl

/-! ## What a choice does to the listing -/

/-- A choice at the first node for an item is recorded in the first line for it. -/
theorem Changed.listingFrom_eq_record {wanted choice : String} {old new : Route}
    (h : Changed (withChoice choice) wanted old new) (level : Nat) :
    new.listingFrom level = record wanted choice (old.listingFrom level) := by
  obtain ⟨⟨item, choice', parts⟩, before, k, after, rfl, hold, hnew⟩ :=
    h.exists_firstNode (fun r => item_withChoice choice r) level
  rw [hold.listing, hnew.listing, record_append_of_not_mem hold.first]
  exact congrArg (before ++ ·) (if_pos rfl).symm

theorem listing_addPart_chosen (r : Route) (item choice : String) :
    (r.addPart (chosen item choice)).listing = r.listing ++ [⟨2, item, some choice⟩] := by
  cases r with
  | node i c ps =>
    rw [addPart, listing, listing, listingFrom, listingFrom, listingOfAll_append]
    rfl

/-- A choice for an item is recorded in the first line for it, or in a new line at the end. -/
theorem listing_select (r : Route) (item choice : String) :
    (r.select item choice).listing = record item choice r.listing := by
  rw [select]
  cases h : updateFirst? (withChoice choice) item r with
  | some new => exact (changed_of_updateFirst? r h).listingFrom_eq_record 1
  | none =>
    have hnone : item ∉ r.listing.map Line.item := by
      rw [map_item_listing]
      exact (updateFirst?_eq_none_iff r).1 h
    rw [record_of_not_mem hnone]
    exact listing_addPart_chosen r item choice

end RecipePlanner.Route

import RecipePlanner.Proofs.Route.Completion

/-!
# What choosing and clearing change

Both operations edit the first node for an item and leave every other line of the listing as it is.
A choice is recorded in the first line for the item or, if there is none, in a new line at the end
(`select_effect`). Clearing takes the choice from that line and the deeper lines right behind it away,
which are those of the parts (`reset_effect`). What becomes of the number of choices is counted in the
lines, too (`FirstNode.decisions`).
-/

namespace RecipePlanner.Route

/-! ## Lines and choices -/

theorem decisionsOfAll_eq_countP {level : Nat} {ps : List Route}
    (h : ∀ p ∈ ps, p.decisions = (p.listingFrom level).countP (·.choice.isSome)) :
    decisionsOfAll ps = (listingOfAll level ps).countP (·.choice.isSome) := by
  induction ps with
  | nil => rfl
  | cons p ps ih =>
    obtain ⟨hp, hps⟩ := List.forall_mem_cons.1 h
    rw [decisionsOfAll, listingOfAll, List.countP_append, hp, ih hps]

/-- The choices made are counted line by line. -/
theorem decisions_eq_countP (r : Route) (level : Nat) :
    r.decisions = (r.listingFrom level).countP (·.choice.isSome) := by
  induction r using induct generalizing level with
  | hnode i c ps ih =>
    rw [decisions, listingFrom, List.countP_cons, decisionsOfAll_eq_countP fun p hp => ih p hp _,
      Nat.add_comm]

theorem listingFrom_eq (r : Route) (level : Nat) :
    r.listingFrom level = ⟨level, r.item, r.choice⟩ :: listingOfAll (level + 1) r.parts := by
  cases r with
  | node i c ps => rfl

/-- No line of a route stands above its root. -/
theorem le_level_of_mem_listingFrom {r : Route} {level : Nat} :
    ∀ l ∈ r.listingFrom level, level ≤ l.level := by
  induction r using induct generalizing level with
  | hnode i c ps ih =>
    rw [listingFrom, List.forall_mem_cons]
    refine ⟨Nat.le_refl level, ?_⟩
    intro l hl
    obtain ⟨p, hp, hlp⟩ := mem_listingOfAll_iff.1 hl
    exact Nat.le_of_succ_le (ih p hp l hlp)

/-- The deeper lines that follow a node are those of its parts. -/
theorem dropWhile_listingOfAll_append {level : Nat} {rest : List Line} (h : EndsAt level rest)
    (ps : List Route) :
    (listingOfAll (level + 1) ps ++ rest).dropWhile (level < ·.level) = rest := by
  have hdeeper : ∀ l ∈ listingOfAll (level + 1) ps, decide (level < l.level) = true := by
    intro l hl
    obtain ⟨p, -, hlp⟩ := mem_listingOfAll_iff.1 hl
    exact decide_eq_true (le_level_of_mem_listingFrom l hlp)
  rw [List.dropWhile_append_of_pos hdeeper]
  cases rest with
  | nil => rfl
  | cons l ls =>
    have hl : ¬ level < l.level := Nat.not_lt.2 (h l rfl)
    rw [List.dropWhile_cons_of_neg (by simpa using hl)]

/-! ## The first node before and after an edit -/

section FirstNode

variable {r r' found found' : Route} {level k : Nat} {before after : List Line}

/-- Where only the lines of a node differ, so does the number of choices. -/
theorem FirstNode.decisions (h : FirstNode r level found before k after)
    (h' : FirstNode r' level found' before k after) :
    r'.decisions + found.decisions = r.decisions + found'.decisions := by
  rw [decisions_eq_countP r level, decisions_eq_countP r' level, decisions_eq_countP found k,
    decisions_eq_countP found' k, h.listing, h'.listing]
  simp only [List.countP_append]
  omega

/-- The line of the node is the first one for its item. -/
theorem FirstNode.listing_eq (h : FirstNode r level found before k after) :
    r.listingFrom level =
      before ++ ⟨k, found.item, found.choice⟩ :: (listingOfAll (k + 1) found.parts ++ after) := by
  rw [h.listing, listingFrom_eq, List.cons_append]

end FirstNode

theorem choice_withChoice (choice : String) (r : Route) :
    (r.withChoice choice).choice = some choice := by
  cases r with
  | node i c ps => rfl

theorem parts_withChoice (choice : String) (r : Route) :
    (r.withChoice choice).parts = r.parts := by
  cases r with
  | node i c ps => rfl

theorem cleared_eq_ofItem (r : Route) : r.cleared = ofItem r.item := by
  cases r with
  | node i c ps => rfl

theorem decisions_withChoice (choice : String) (r : Route) :
    (r.withChoice choice).decisions = r.decisions + if r.choice.isSome then 0 else 1 := by
  obtain ⟨i, c, ps⟩ := r
  cases c with
  | none => simp [withChoice, decisions, Route.choice, Nat.add_comm]
  | some c => simp [withChoice, decisions, Route.choice]

theorem decisions_cleared (r : Route) : r.cleared.decisions = 0 := by
  cases r with
  | node i c ps => rfl

theorem decisions_addPart_chosen (r : Route) (item choice : String) :
    (r.addPart (chosen item choice)).decisions = r.decisions + 1 := by
  rw [decisions_eq_countP _ 1, decisions_eq_countP r 1]
  have h := congrArg (List.countP (·.choice.isSome)) (listing_addPart_chosen r item choice)
  rwa [List.countP_append] at h

/-- A part that is added for a new item is the first node for it. -/
theorem find?_addPart_chosen {r : Route} {item : String} (h : item ∉ r.items) (choice : String) :
    (r.addPart (chosen item choice)).find? item = some (chosen item choice) := by
  cases r with
  | node i c ps =>
    obtain ⟨hitem, hparts⟩ := not_mem_items_node_iff.1 h
    rw [addPart]
    apply find?_of_part hitem hparts
    exact find?_of_item_eq rfl

/-- A choice is made at the first node for the item, or at a new part of the root. -/
theorem select_cases (r : Route) (item choice : String) :
    (item ∉ r.items ∧ r.select item choice = r.addPart (chosen item choice)) ∨
      ∃ found before k after, found.item = item ∧ FirstNode r 1 found before k after ∧
        FirstNode (r.select item choice) 1 (found.withChoice choice) before k after := by
  cases h : updateFirst? (withChoice choice) item r with
  | none =>
    -- Only where there was nothing to change, the root gets a new part.
    apply Or.inl
    rw [select, h]
    exact ⟨(updateFirst?_eq_none_iff r).1 h, rfl⟩
  | some new =>
    apply Or.inr
    rw [select, h]
    exact (changed_of_updateFirst? r h).exists_firstNode (item_withChoice choice) 1

/-- The first node for the item is cleared, if there is one. -/
theorem reset?_cases (r : Route) (item : String) :
    (item ∉ r.items ∧ r.reset? item = none) ∨
      ∃ new found before k after, r.reset? item = some new ∧ found.item = item ∧
        FirstNode r 1 found before k after ∧ FirstNode new 1 found.cleared before k after := by
  cases h : r.reset? item with
  | none => exact Or.inl ⟨(updateFirst?_eq_none_iff r).1 h, rfl⟩
  | some new =>
    obtain ⟨found, before, k, after, hitem, hold, hnew⟩ :=
      (changed_of_updateFirst? r h).exists_firstNode item_cleared 1
    exact Or.inr ⟨new, found, before, k, after, rfl, hitem, hold, hnew⟩

section Find

variable {r found : Route} {item : String}

theorem find?_select (h : r.find? item = some found) (choice : String) :
    (r.select item choice).find? item = some (found.withChoice choice) := by
  obtain ⟨hnone, -⟩ | ⟨found', before, k, after, rfl, hold, hnew⟩ := select_cases r item choice
  · rw [(find?_eq_none_iff r).2 hnone] at h
    cases h
  · rw [hold.find] at h
    cases h
    -- The node that was changed is still the first one for its item.
    have hfind := hnew.find
    rwa [item_withChoice] at hfind

/-- Clearing a node again changes nothing. -/
theorem reset?_eq_self (h : r.find? item = some found) (hcleared : found.cleared = found) :
    r.reset? item = some r := by
  obtain ⟨hnone, -⟩ | ⟨new, found', before, k, after, hreset, rfl, hold, hnew⟩ :=
    reset?_cases r item
  · rw [(find?_eq_none_iff r).2 hnone] at h
    cases h
  · rw [hold.find] at h
    cases h
    rw [hreset, Option.some.injEq]
    -- No line has changed, neither those of the node nor the others.
    apply listing_injective
    rw [listing, listing, hnew.listing, hold.listing, hcleared]

end Find

/-! ## Choosing -/

/-- A choice for an item changes one line, the first one for it, or comes in a new line of a part of
the root behind all others. The item then has the choice, the items are those that were there and the
one chosen for, and the choices are one more exactly if the first node for the item had none. -/
theorem select_effect (r : Route) (item choice : String) :
    ((∃ before line after, r.listing = before ++ line :: after ∧ line.item = item ∧
        item ∉ before.map Line.item ∧
        (r.select item choice).listing = before ++ { line with choice := some choice } :: after) ∨
      (item ∉ r.items ∧
        (r.select item choice).listing = r.listing ++ [⟨2, item, some choice⟩])) ∧
    ((r.select item choice).find? item).bind Route.choice = some choice ∧
    (∀ x, x ∈ (r.select item choice).itemIds ↔ x = item ∨ x ∈ r.itemIds) ∧
    (r.select item choice).decisions =
      r.decisions + if ((r.find? item).bind Route.choice).isSome then 0 else 1 := by
  have hitems : ∀ x, x ∈ (r.select item choice).itemIds ↔ x = item ∨ x ∈ r.itemIds := by
    intro x
    rw [mem_itemIds_iff, mem_itemIds_iff, mem_items_select]
  obtain ⟨hnone, hselect⟩ | ⟨found, before, k, after, rfl, hold, hnew⟩ :=
    select_cases r item choice
  · refine ⟨Or.inr ⟨hnone, ?_⟩, ?_, hitems, ?_⟩
    · rw [hselect, listing_addPart_chosen]
    · rw [hselect, find?_addPart_chosen hnone]
      rfl
    · rw [hselect, decisions_addPart_chosen, (find?_eq_none_iff r).2 hnone]
      rfl
  · have hfind := hnew.find
    have hlisting := hnew.listing_eq
    rw [item_withChoice] at hfind hlisting
    rw [choice_withChoice, parts_withChoice] at hlisting
    refine ⟨Or.inl ⟨before, _, _, hold.listing_eq, rfl, hold.first, hlisting⟩, ?_, hitems, ?_⟩
    · rw [hfind, Option.bind_some, choice_withChoice]
    · -- The numbers of choices differ as those of the node do.
      have hdecisions := hold.decisions hnew
      rw [decisions_withChoice] at hdecisions
      rw [hold.find, Option.bind_some]
      omega

/-! ## Clearing -/

/-- Clearing an item that does not occur gives nothing. Else it takes the choice from the first line
for the item, drops the deeper lines right behind it and leaves all other lines as they are. The
choices made below the node are gone with its own, clearing it again changes nothing, and a later
choice for the item is made at a node without parts. -/
theorem reset_effect (r : Route) (item : String) :
    (item ∉ r.items ∧ r.reset? item = none) ∨
      ∃ new found before line after,
        r.reset? item = some new ∧ r.find? item = some found ∧
        r.listing = before ++ line :: after ∧ line.item = item ∧ item ∉ before.map Line.item ∧
        new.listing =
          before ++ { line with choice := none } :: after.dropWhile (line.level < ·.level) ∧
        new.decisions + found.decisions = r.decisions ∧
        new.reset? item = some new ∧
        ∀ choice, (new.select item choice).find? item = some (chosen item choice) ∧
          (new.select item choice).listing =
            before ++
              { line with choice := some choice } :: after.dropWhile (line.level < ·.level) := by
  obtain h | ⟨new, found, before, k, after, hreset, rfl, hold, hnew⟩ := reset?_cases r item
  · exact Or.inl h
  apply Or.inr
  have hfind : new.find? found.item = some (ofItem found.item) := by
    have h := hnew.find
    rwa [item_cleared, cleared_eq_ofItem] at h
  have hlisting : new.listing = before ++ ⟨k, found.item, none⟩ :: after := by
    rw [listing, hnew.listing, cleared_eq_ofItem]
    rfl
  have hdecisions : new.decisions + found.decisions = r.decisions := by
    rw [hold.decisions hnew, decisions_cleared, Nat.add_zero]
  -- The deeper lines behind the node are those of its parts, and `after` is what follows them.
  refine ⟨new, found, before, _, _, hreset, hold.find, hold.listing_eq, rfl, hold.first, ?_,
    hdecisions, reset?_eq_self hfind rfl, ?_⟩
  · rw [dropWhile_listingOfAll_append hold.ends, hlisting]
  · intro choice
    refine ⟨find?_select hfind choice, ?_⟩
    rw [dropWhile_listingOfAll_append hold.ends, listing_select, hlisting,
      record_append_of_not_mem hold.first, record, if_pos rfl]

/-- The second node for an item keeps its choice. -/
example :
    (node "pickaxe" none
      [node "ingot" (some "smelting") [ofItem "ore"], chosen "ingot" "crafting"]).reset? "ingot" =
      some (node "pickaxe" none [ofItem "ingot", chosen "ingot" "crafting"]) := by
  decide +kernel

end RecipePlanner.Route

import RecipePlanner.Proofs.Route.Changes
import RecipePlanner.Proofs.Route.RoundTrip

/-!
# Routes made by operations

`Built supplied r` says that `r` is made from single nodes and from read texts by adding parts,
choosing and clearing, in any order, where every item and choice handed to an operation satisfies
`supplied`; the texts that are read are arbitrary. Each operation keeps the rules of a route, so
every route that is built keeps them, and it is read back from its text if no empty text was
supplied (`rules_of_built`).

The checks stand in different places: `withPart` asks only whether the item at the root occurs in
the new part and how deep that is, `select` adds a part without any check, the reader keeps a
lineage of its own. What makes `select` safe is that it adds only an item that occurs nowhere
(`ruled_select`).
-/

namespace RecipePlanner.Route

/-- The routes that operations make of supplied items and choices. -/
inductive Built (supplied : String → Prop) : Route → Prop where
  | ofItem {item : String} (hitem : supplied item) : Built supplied (Route.ofItem item)
  | chosen {item choice : String} (hitem : supplied item) (hchoice : supplied choice) :
      Built supplied (Route.chosen item choice)
  | decode {text : String} {r : Route} (h : decode? text = some r) : Built supplied r
  | withPart {r part : Route} (hr : Built supplied r) (hpart : Built supplied part) :
      Built supplied (r.withPart part)
  | select {r : Route} {item choice : String} (hr : Built supplied r) (hitem : supplied item)
      (hchoice : supplied choice) : Built supplied (r.select item choice)
  | selectIn {current : Option Route} {item choice : String}
      (hcurrent : ∀ r ∈ current, Built supplied r) (hitem : supplied item)
      (hchoice : supplied choice) : Built supplied (Route.selectIn current item choice)
  | reset {r : Route} (hr : Built supplied r) (item : String) :
      Built supplied ((r.reset? item).getD r)

/-- No item repeats along a lineage and the route is not too deep. -/
structure Ruled (r : Route) : Prop where
  lineal : r.Lineal
  depth : r.depth ≤ maxDepth

/-! ## One more part -/

theorem depth_single (item : String) (choice : Option String) :
    (node item choice []).depth = 1 := rfl

theorem ruled_single (item : String) (choice : Option String) : Ruled (node item choice []) where
  lineal := lineal_node_iff.2 (List.forall_mem_nil _)
  depth := by
    rw [depth_single]
    decide

theorem filled_single {item : String} {choice : Option String} (hitem : item ≠ "")
    (hchoice : choice ≠ some "") : (node item choice []).Filled :=
  filled_node_iff.2 ⟨hitem, hchoice, List.forall_mem_nil _⟩

/-- A part may be added if the item at the root does not occur in it and it leaves room for the
level of the root. -/
theorem ruled_addPart {r part : Route} (hr : Ruled r) (hpart : part.Lineal)
    (hitem : r.item ∉ part.items) (hdepth : part.depth < maxDepth) : Ruled (r.addPart part) := by
  cases r with
  | node i c ps =>
    have hlineal : ∀ p ∈ ps ++ [part], i ∉ p.items ∧ p.Lineal :=
      List.forall_mem_append.2
        ⟨lineal_node_iff.1 hr.lineal, List.forall_mem_singleton.2 ⟨hitem, hpart⟩⟩
    have hdeep : ∀ p ∈ ps ++ [part], p.depth ≤ maxDepth - 1 :=
      List.forall_mem_append.2
        ⟨depth_node_le_iff.1 hr.depth, List.forall_mem_singleton.2 (Nat.le_sub_one_of_lt hdepth)⟩
    exact ⟨lineal_node_iff.2 hlineal, depth_node_le_iff.2 hdeep⟩

theorem filled_addPart {r part : Route} (hr : r.Filled) (hpart : part.Filled) :
    (r.addPart part).Filled := by
  cases r with
  | node i c ps =>
    obtain ⟨hitem, hchoice, hparts⟩ := filled_node_iff.1 hr
    refine filled_node_iff.2 ⟨hitem, hchoice, ?_⟩
    exact List.forall_mem_append.2 ⟨hparts, List.forall_mem_singleton.2 hpart⟩

/-! ## What each operation keeps -/

theorem ruled_withPart {r part : Route} (hr : Ruled r) (hpart : Ruled part) :
    Ruled (r.withPart part) := by
  rw [withPart]
  split
  · exact hr
  · next h =>
    rw [not_or, Nat.not_le] at h
    exact ruled_addPart hr hpart.lineal h.1 h.2

theorem filled_withPart {r part : Route} (hr : r.Filled) (hpart : part.Filled) :
    (r.withPart part).Filled := by
  rw [withPart]
  split
  · exact hr
  · exact filled_addPart hr hpart

theorem item_mem_items (r : Route) : r.item ∈ r.items := by
  cases r with
  | node i c ps => exact List.mem_cons_self

theorem ruled_of_within {new old : Route} (h : Within new old) (hold : Ruled old) : Ruled new :=
  ⟨h.lineal hold.lineal, Nat.le_trans h.depth hold.depth⟩

theorem ruled_select {r : Route} (hr : Ruled r) (item choice : String) :
    Ruled (r.select item choice) := by
  rw [select]
  cases h : updateFirst? (withChoice choice) item r with
  | some new =>
    have hchanged := changed_of_updateFirst? r h
    exact ruled_of_within (hchanged.within (within_withChoice choice)) hr
  | none =>
    -- The item occurs nowhere, hence not at the root.
    have hnew : item ∉ r.items := (updateFirst?_eq_none_iff r).1 h
    have hroot : r.item ∉ (chosen item choice).items := by
      intro hmem
      have heq : r.item = item := List.mem_singleton.1 hmem
      exact hnew (heq ▸ item_mem_items r)
    have hroom : (chosen item choice).depth < maxDepth := by
      rw [chosen, depth_single]
      decide
    exact ruled_addPart hr (ruled_single item (some choice)).lineal hroot hroom

theorem filled_chosen {item choice : String} (hitem : item ≠ "") (hchoice : choice ≠ "") :
    (chosen item choice).Filled :=
  filled_single hitem fun heq => hchoice (Option.some.inj heq)

theorem filled_select {r : Route} (hr : r.Filled) {item choice : String} (hitem : item ≠ "")
    (hchoice : choice ≠ "") : (r.select item choice).Filled := by
  rw [select]
  cases h : updateFirst? (withChoice choice) item r with
  | some new =>
    exact (changed_of_updateFirst? r h).filled (fun _ => filled_withChoice hchoice) hr
  | none => exact filled_addPart hr (filled_chosen hitem hchoice)

theorem ruled_reset {r : Route} (hr : Ruled r) (item : String) :
    Ruled ((r.reset? item).getD r) := by
  cases h : r.reset? item with
  | some new => exact ruled_of_within ((changed_of_updateFirst? r h).within within_cleared) hr
  | none => exact hr

theorem filled_reset {r : Route} (hr : r.Filled) (item : String) :
    ((r.reset? item).getD r).Filled := by
  cases h : r.reset? item with
  | some new => exact (changed_of_updateFirst? r h).filled (fun _ => filled_cleared) hr
  | none => exact hr

/-! ## All routes that are built -/

theorem ruled_of_built {supplied : String → Prop} {r : Route} (h : Built supplied r) :
    Ruled r := by
  induction h with
  | ofItem _ => exact ruled_single _ _
  | chosen _ _ => exact ruled_single _ _
  | decode h =>
    obtain ⟨-, hlineal, hdepth⟩ := rules_of_decode? h
    exact ⟨hlineal, hdepth⟩
  | withPart _ _ hr hpart => exact ruled_withPart hr hpart
  | select _ _ _ hr => exact ruled_select hr _ _
  | @selectIn current item choice _ _ _ hcurrent =>
    cases current with
    | none => exact ruled_single _ _
    | some r => exact ruled_select (hcurrent r rfl) item choice
  | reset _ item hr => exact ruled_reset hr item

theorem filled_of_built {supplied : String → Prop} (hsupplied : ∀ s, supplied s → s ≠ "")
    {r : Route} (h : Built supplied r) : r.Filled := by
  induction h with
  | ofItem hitem => exact filled_single (hsupplied _ hitem) nofun
  | chosen hitem hchoice => exact filled_chosen (hsupplied _ hitem) (hsupplied _ hchoice)
  | decode h => exact (rules_of_decode? h).1
  | withPart _ _ hr hpart => exact filled_withPart hr hpart
  | select _ hitem hchoice hr => exact filled_select hr (hsupplied _ hitem) (hsupplied _ hchoice)
  | @selectIn current item choice _ hitem hchoice hcurrent =>
    have hitem' := hsupplied _ hitem
    have hchoice' := hsupplied _ hchoice
    cases current with
    | none => exact filled_chosen hitem' hchoice'
    | some r => exact filled_select (hcurrent r rfl) hitem' hchoice'
  | reset _ item hr => exact filled_reset hr item

/-- A route that operations make repeats no item along a lineage and has at most `maxDepth` levels;
if every item and choice supplied to them is a text that is not empty, it is read back from its
text. -/
theorem rules_of_built {supplied : String → Prop} {r : Route} (h : Built supplied r) :
    r.Lineal ∧ r.depth ≤ maxDepth ∧
      ((∀ s, supplied s → s ≠ "") → decode? (encode r) = some r) := by
  have hruled := ruled_of_built h
  refine ⟨hruled.lineal, hruled.depth, fun hsupplied => ?_⟩
  exact decode?_encode (filled_of_built hsupplied h) hruled.lineal hruled.depth

/-- A route that is read, then given a part and a choice for an item that is new. -/
theorem rules_of_built_torch :
    let r := ((node "torch" none [ofItem "stick"]).withPart
      ((chosen "charcoal" "smelting").withPart (ofItem "log"))).select "coal" "mining"
    Built (· ≠ "") r ∧ r.Lineal ∧ r.depth ≤ maxDepth ∧ decode? (encode r) = some r := by
  intro r
  have hread : decode? "torch~stick" = some (node "torch" none [ofItem "stick"]) := by
    decide +kernel
  have hpart : Built (· ≠ "") ((chosen "charcoal" "smelting").withPart (ofItem "log")) :=
    .withPart (.chosen (by decide) (by decide)) (.ofItem (by decide))
  have hbuilt : Built (· ≠ "") r :=
    .select (.withPart (.decode hread) hpart) (by decide) (by decide)
  obtain ⟨hlineal, hdepth, hback⟩ := rules_of_built hbuilt
  exact ⟨hbuilt, hlineal, hdepth, hback fun _ h => h⟩

end RecipePlanner.Route

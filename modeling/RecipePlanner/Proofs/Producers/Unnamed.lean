import RecipePlanner.Proofs.Producers.Forms
import RecipePlanner.Proofs.Producers.Known

/-!
# Producers without names

Items and tags carry names for readers, which decide nothing: the producers among recipes whose names
were removed are the producers among the recipes with their names removed (`ofList_map_unnamed`). All
that is asked of producers goes along with that. Numbers and truth values stay the same, materials and
recipes lose their names (`lookup_unnamed`, `positions_unnamed`, `keyed_unnamed`).
-/

namespace RecipePlanner

/-! ## Removing names -/

/-- The item without its name. -/
def Item.unnamed (i : Item) : Item := { i with name := "" }

/-- The material without its name and those of its members. -/
def Material.unnamed : Material → Material
  | .item i => .item i.unnamed
  | .tag t => .tag { t with name := "", members := t.members.map Item.unnamed }

/-- The recipe without the names of its materials. -/
def Recipe.unnamed (r : Recipe) : Recipe := r.mapMaterials Material.unnamed

/-- The alternative without the names in its recipe. -/
def KeyedRecipe.unnamed (k : KeyedRecipe) : KeyedRecipe := { k with recipe := k.recipe.unnamed }

/-- Known forms without names. -/
def Producers.unnamedForms (known : List (String × Material)) : List (String × Material) :=
  known.map fun (id, m) => (id, m.unnamed)

/-- The producers without the names in their recipes and in the forms that they know. -/
def Producers.unnamed (p : Producers) : Producers :=
  { p with recipes := p.recipes.map Recipe.unnamed, known := unnamedForms p.known }

namespace Material

@[simp]
theorem id_unnamed (m : Material) : m.unnamed.id = m.id := by cases m <;> rfl

@[simp]
theorem isTag_unnamed (m : Material) : m.unnamed.isTag = m.isTag := by cases m <;> rfl

@[simp]
theorem itemIds_unnamed (m : Material) : m.unnamed.itemIds = m.itemIds := by
  cases m with
  | item i => rfl
  | tag t =>
    rw [unnamed, itemIds, itemIds, List.map_map]
    rfl

/-- Without names a material keeps its form. -/
theorem sameForm_unnamed (m : Material) : m.unnamed.SameForm m :=
  ⟨m.id_unnamed, m.isTag_unnamed, m.itemIds_unnamed⟩

theorem map_unnamed_members (t : Tag) :
    t.members.map Item.unnamed = (Material.tag t).itemIds.map fun id => ⟨id, ""⟩ := by
  rw [itemIds, List.map_map]
  rfl

/-- Materials have one form exactly if they are the same without names. -/
theorem sameForm_iff_unnamed_eq {m n : Material} : m.SameForm n ↔ m.unnamed = n.unnamed := by
  constructor
  · rintro ⟨hid, htag, hitems⟩
    cases m with
    | item i =>
      cases n with
      | item j => rw [unnamed, unnamed, Item.unnamed, Item.unnamed, show i.id = j.id from hid]
      | tag u => cases htag
    | tag t =>
      cases n with
      | item j => cases htag
      | tag u =>
        rw [unnamed, unnamed, map_unnamed_members, map_unnamed_members, hitems,
          show t.id = u.id from hid]
  · intro h
    have hm := m.sameForm_unnamed
    have hn := n.sameForm_unnamed
    rw [h] at hm
    exact ⟨hm.id.symm.trans hn.id, hm.isTag.symm.trans hn.isTag, hm.itemIds.symm.trans hn.itemIds⟩

theorem unnamed_unnamed (m : Material) : m.unnamed.unnamed = m.unnamed :=
  sameForm_iff_unnamed_eq.1 m.sameForm_unnamed

end Material

namespace Recipe

theorem map_material_unnamed (given : List Stack) :
    (given.map fun s => { s with material := s.material.unnamed }).map (·.material) =
      (given.map (·.material)).map Material.unnamed := by
  rw [List.map_map, List.map_map]
  rfl

theorem isProductive_unnamed (r : Recipe) : r.unnamed.isProductive = r.isProductive := by
  rw [isProductive, isProductive, unnamed, mapMaterials, List.isEmpty_map]
  rfl

/-- Without names the same needs are distinct. -/
theorem distinctNeeds_unnamed (r : Recipe) :
    r.unnamed.distinctNeeds = r.distinctNeeds.map Material.unnamed := by
  have hid : Material.id ∘ Material.unnamed = Material.id := funext Material.id_unnamed
  rw [distinctNeeds, unnamed, mapMaterials, map_material_unnamed, firstSeen_map, hid, distinctNeeds]

end Recipe

/-- Keys do not depend on names. -/
theorem BranchKey.assign_map_unnamed (rs : List Recipe) :
    assign (rs.map Recipe.unnamed) = assign rs := by
  have hbase : base (rs.map Recipe.unnamed) ∘ Recipe.unnamed = base rs := by
    funext r
    rw [Function.comp_apply, base, List.countP_map, base]
    rfl
  rw [assign, List.map_map, hbase, assign]

namespace Producers

/-! ## The tables -/

theorem better_unnamed (earlier new : Material) :
    better earlier.unnamed new.unnamed = (better earlier new).unnamed := by
  simp only [better_eq, Material.itemIds_unnamed]
  split
  · rfl
  · rfl

theorem remember_unnamed (known : List (String × Material)) (m : Material) :
    remember (unnamedForms known) m.unnamed = unnamedForms (remember known m) := by
  rw [remember, remember, Material.id_unnamed]
  refine (Keyed.map_alter Material.unnamed (fun earlier => ?_) m.id known).symm
  cases earlier with
  | none => rfl
  | some form => exact (better_unnamed form m).symm

theorem note_unnamed (position : Nat) (byItem : List (String × List Nat)) (m : Material) :
    note position byItem m.unnamed = note position byItem m := by
  rw [note, note, Material.isTag_unnamed, Material.id_unnamed]

theorem foldl_remember_unnamed (ms : List Material) (known : List (String × Material)) :
    (ms.map Material.unnamed).foldl remember (unnamedForms known) =
      unnamedForms (ms.foldl remember known) := by
  rw [List.foldl_map]
  exact List.foldl_hom unnamedForms remember_unnamed

theorem foldl_note_unnamed (position : Nat) (ms : List Material)
    (byItem : List (String × List Nat)) :
    (ms.map Material.unnamed).foldl (note position) byItem = ms.foldl (note position) byItem := by
  simp only [List.foldl_map, note_unnamed]

/-- A recipe without names is added as the recipe is. -/
theorem insert_unnamed (p : Producers) (r : Recipe) :
    p.unnamed.insert r.unnamed = (p.insert r).unnamed := by
  by_cases h : r.isProductive = true
  · have hunnamed : r.unnamed.isProductive = true := r.isProductive_unnamed.trans h
    have hmentioned : (r.unnamed.needs ++ r.unnamed.yields).map (·.material) =
        ((r.needs ++ r.yields).map (·.material)).map Material.unnamed := by
      rw [Recipe.unnamed, Recipe.mapMaterials, ← List.map_append, Recipe.map_material_unnamed]
    have hyielded : r.unnamed.yields.map (·.material) =
        (r.yields.map (·.material)).map Material.unnamed := by
      rw [Recipe.unnamed, Recipe.mapMaterials, Recipe.map_material_unnamed]
    rw [insert_of_productive h, insert_of_productive hunnamed, hmentioned, hyielded,
      foldl_note_unnamed]
    simp only [unnamed, foldl_remember_unnamed, Array.size_map, Array.map_push]
  · have hunnamed : ¬ r.unnamed.isProductive = true := by rwa [r.isProductive_unnamed]
    rw [insert_of_not_productive h, insert_of_not_productive hunnamed]

theorem unnamed_empty : empty.unnamed = empty := by
  simp only [unnamed, unnamedForms, empty, List.map_nil, Array.map_empty]

/-- The producers among recipes without names are the producers without names. -/
theorem ofList_map_unnamed (rs : List Recipe) :
    ofList (rs.map Recipe.unnamed) = (ofList rs).unnamed := by
  rw [ofList, List.foldl_map, ofList]
  nth_rewrite 1 [← unnamed_empty]
  exact List.foldl_hom unnamed insert_unnamed

/-! ## What is asked of producers -/

variable (p : Producers)

theorem size_unnamed : p.unnamed.size = p.size := Array.size_map

/-- The same form is looked up, but for names. -/
theorem lookup_unnamed (raw : String) : (p.unnamed.lookup raw).unnamed = (p.lookup raw).unnamed := by
  have hknown : p.unnamed.known.lookup (Text.trim raw) =
      (p.known.lookup (Text.trim raw)).map Material.unnamed :=
    Keyed.lookup_map (fun _ => Material.unnamed) p.known (Text.trim raw)
  rw [lookup, lookup, hknown]
  cases p.known.lookup (Text.trim raw) with
  | none => rfl
  | some m => exact m.unnamed_unnamed

theorem sameForm_lookup_unnamed (raw : String) :
    (p.unnamed.lookup raw).SameForm (p.lookup raw) :=
  Material.sameForm_iff_unnamed_eq.2 (p.lookup_unnamed raw)

/-- A material has the same positions. -/
theorem positions_unnamed (m : Material) : p.unnamed.positions m.unnamed = p.positions m :=
  positions_congr p.sameForm_lookup_unnamed rfl m.sameForm_unnamed

theorem isBase_unnamed (m : Material) : p.unnamed.isBase m.unnamed = p.isBase m := by
  rw [isBase, isBase, positions_unnamed]

theorem producing_unnamed (m : Material) :
    p.unnamed.producing m.unnamed = (p.producing m).map Recipe.unnamed := by
  rw [producing, producing, positions_unnamed, List.map_filterMap]
  simp only [unnamed, Array.getElem?_map]

/-- A material has the same alternatives under the same keys, but for the names in their recipes. -/
theorem keyed_unnamed (m : Material) :
    p.unnamed.keyed m.unnamed = (p.keyed m).map KeyedRecipe.unnamed := by
  rw [keyed, keyed, producing_unnamed, BranchKey.assign_map_unnamed, List.zipWith_map_right,
    List.map_zipWith]
  rfl

end Producers

end RecipePlanner

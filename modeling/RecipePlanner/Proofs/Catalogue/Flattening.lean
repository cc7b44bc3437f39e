import Mathlib.Data.List.Nodup
import Mathlib.Data.List.Perm.Subperm
import Mathlib.Logic.Relation
import RecipePlanner.Proofs.Catalogue.Draft

/-!
# Tags flattened to their items

The items of a tag are those of all tags that it refers to, directly or through other tags, each
once (`mem_flatten_iff`, `nodup_flatten`). A tag that is being flattened already is passed over, so
what is entered from a tag are the tags that can be reached without meeting one of the lineage
(`Clear`). Nothing is lost by that: on a way that meets a tag again the part between the two meetings
can be left out (`clear_or_clear_cons`), so every tag that is reached is reached on a clear way.

The levels never run out, as each tag of the lineage is another one of those entered (`Room`).
-/

namespace RecipePlanner.Catalogue.Draft

open Relation

variable {tags : TagList}

/-- The items of a tag in a table of tags, each once, in the order in which they are met. -/
def flatten (tags : TagList) (tag : String) : List String :=
  gather (tags.lookup ·) tags.length [] tag []

/-- A draft flattens the tags of its table. -/
theorem flattened_eq_flatten (d : Draft) : d.flattened = flatten d.tags := by
  have hvalues : d.values? = (d.tags.lookup ·) := funext d.values?_eq_lookup
  funext tag
  rw [flattened, hvalues, flatten]

/-! ## Tags that refer to each other -/

/-- The first tag has the second, which is entered, among its values. -/
def Refers (tags : TagList) (tag other : String) : Prop :=
  other ∈ tags.map (·.1) ∧
    ∃ value ∈ valuesOf tags tag, Naming.isTagName value = true ∧ Naming.tagName value = other

/-- An item is among the values of the tag. -/
def HasItem (tags : TagList) (tag id : String) : Prop :=
  id ∈ valuesOf tags tag ∧ Naming.isTagName id = false

/-- A way from the first to the second that meets no tag of the lineage and none twice. -/
inductive Clear (tags : TagList) : (lineage : List String) → (tag other : String) → Prop where
  | refl {lineage : List String} {tag : String} (htag : tag ∉ lineage) : Clear tags lineage tag tag
  | step {lineage : List String} {tag next other : String} (htag : tag ∉ lineage)
      (hnext : Refers tags tag next) (h : Clear tags (tag :: lineage) next other) :
      Clear tags lineage tag other

theorem Clear.mono {lineage fewer : List String} {tag other : String}
    (h : Clear tags lineage tag other) (hsub : fewer ⊆ lineage) : Clear tags fewer tag other := by
  induction h generalizing fewer with
  | refl htag => exact .refl fun hmem => htag (hsub hmem)
  | step htag hnext _ ih =>
    exact .step (fun hmem => htag (hsub hmem)) hnext (ih (List.cons_subset_cons _ hsub))

/-- A clear way meets a given tag, and then its end is on a clear way from there, or it is still
clear with that tag in the lineage. -/
theorem clear_or_clear_cons {lineage : List String} {tag other : String}
    (h : Clear tags lineage tag other) (met : String) :
    Clear tags lineage met other ∨ Clear tags (met :: lineage) tag other := by
  induction h with
  | @refl lineage tag htag =>
    by_cases heq : tag = met
    · subst heq
      exact Or.inl (.refl htag)
    · exact Or.inr (.refl fun hmem => (List.mem_cons.1 hmem).elim heq htag)
  | @step lineage tag next other htag hnext h ih =>
    by_cases heq : tag = met
    · subst heq
      exact Or.inl (.step htag hnext h)
    · rcases ih with ih | ih
      · exact Or.inl (ih.mono (List.subset_cons_self tag lineage))
      · refine Or.inr (.step (fun hmem => (List.mem_cons.1 hmem).elim heq htag) hnext ?_)
        exact ih.mono (List.Perm.swap tag met lineage).symm.subset

/-- Every tag that is reached is reached on a clear way. -/
theorem clear_of_reflTransGen {tag other : String} (h : ReflTransGen (Refers tags) tag other) :
    Clear tags [] tag other := by
  -- From the end backwards. A step in front keeps the way clear, unless the way comes back to the
  -- tag that the step starts from; then the way from there on is taken instead.
  induction h using ReflTransGen.head_induction_on with
  | refl => exact .refl List.not_mem_nil
  | @head tag next hnext _ ih =>
    rcases clear_or_clear_cons ih tag with hclear | hclear
    · exact hclear
    · exact .step List.not_mem_nil hnext hclear

/-! ## Levels -/

/-- The lineage consists of different tags that are entered, and with the levels left there are as
many as tags. -/
structure Room (tags : TagList) (levels : Nat) (lineage : List String) : Prop where
  nodup : lineage.Nodup
  entered : lineage ⊆ tags.map (·.1)
  enough : tags.length ≤ levels + lineage.length

theorem room_nil (tags : TagList) : Room tags tags.length [] :=
  ⟨List.nodup_nil, List.nil_subset _, Nat.le_refl _⟩

/-- A tag that is new to the lineage takes one level. -/
theorem Room.exists_room_cons {levels : Nat} {lineage : List String} {tag : String}
    (h : Room tags levels lineage) (hentered : tag ∈ tags.map (·.1)) (hnew : tag ∉ lineage) :
    ∃ n, levels = n + 1 ∧ Room tags n (tag :: lineage) := by
  have hnodup : (tag :: lineage).Nodup := List.nodup_cons.2 ⟨hnew, h.nodup⟩
  have hsub : tag :: lineage ⊆ tags.map (·.1) := List.cons_subset.2 ⟨hentered, h.entered⟩
  -- Different tags that are all entered: no more than there are tags, so a level is left.
  have hlength : lineage.length + 1 ≤ tags.length := by
    have hle := (hnodup.subperm hsub).length_le
    rwa [List.length_cons, List.length_map] at hle
  have henough := h.enough
  refine ⟨levels - 1, by omega, hnodup, hsub, ?_⟩
  rw [List.length_cons]
  omega

/-! ## One tag -/

/-- What a value adds to the items found, given how a tag does. -/
def gatherValue (gatherTag : String → List String → List String) (found : List String)
    (value : String) : List String :=
  if Naming.isTagName value then gatherTag (Naming.tagName value) found
  else if value ∈ found then found
  else found ++ [value]

theorem gather_of_not_mem {tag : String} (h : tag ∉ tags.map (·.1)) (levels : Nat)
    (lineage found : List String) : gather (tags.lookup ·) levels lineage tag found = found := by
  cases levels with
  | zero => rfl
  | succ n => rw [gather, Keyed.lookup_eq_none_iff.2 h]

theorem gather_of_mem_lineage {tag : String} {lineage : List String} (h : tag ∈ lineage)
    (levels : Nat) (found : List String) :
    gather (tags.lookup ·) levels lineage tag found = found := by
  cases levels with
  | zero => rfl
  | succ n =>
    rw [gather]
    split
    · rfl
    · exact if_pos h

theorem gather_succ {tag : String} {lineage : List String} (hentered : tag ∈ tags.map (·.1))
    (hnew : tag ∉ lineage) (n : Nat) (found : List String) :
    gather (tags.lookup ·) (n + 1) lineage tag found =
      (valuesOf tags tag).foldl (gatherValue (gather (tags.lookup ·) n (tag :: lineage))) found := by
  rw [gather, valuesOf]
  cases h : tags.lookup tag with
  | none => exact absurd hentered (Keyed.lookup_eq_none_iff.1 h)
  | some values => exact if_neg hnew

/-! ## What is found -/

/-- What holds of the items found so far, and still holds with one more that is new and stands in a
tag that is reached, holds of the items found in the end. -/
theorem gather_induction {P : List String → Prop} {levels : Nat} {lineage : List String}
    {tag : String} {found : List String} (hfound : P found)
    (hadd : ∀ other id found, ReflTransGen (Refers tags) tag other → HasItem tags other id →
      id ∉ found → P found → P (found ++ [id])) :
    P (gather (tags.lookup ·) levels lineage tag found) := by
  induction levels generalizing lineage tag found with
  | zero => exact hfound
  | succ n ih =>
    by_cases hentered : tag ∈ tags.map (·.1)
    · by_cases hmem : tag ∈ lineage
      · rwa [gather_of_mem_lineage hmem]
      · rw [gather_succ hentered hmem]
        refine List.foldlRecOn _ _ hfound fun found hfound value hvalue => ?_
        rw [gatherValue]
        split
        · next htag =>
          by_cases hother : Naming.tagName value ∈ tags.map (·.1)
          · -- What is reached from the nested tag is reached from the tag itself.
            have hrefers : Refers tags tag (Naming.tagName value) :=
              ⟨hother, value, hvalue, htag, rfl⟩
            exact ih hfound fun other id found hreach =>
              hadd other id found (ReflTransGen.head hrefers hreach)
          · rwa [gather_of_not_mem hother]
        · next htag =>
          split
          · exact hfound
          · next hnew =>
            exact hadd tag value found .refl ⟨hvalue, Bool.eq_false_iff.2 htag⟩ hnew hfound
    · rwa [gather_of_not_mem hentered]

theorem mem_gather_of_mem {levels : Nat} {lineage : List String} {tag id : String}
    {found : List String} (h : id ∈ found) : id ∈ gather (tags.lookup ·) levels lineage tag found :=
  gather_induction h fun _ _ _ _ _ _ hmem => List.mem_append_left _ hmem

theorem mem_gatherValue_of_mem {levels : Nat} {lineage : List String} {value id : String}
    {found : List String} (h : id ∈ found) :
    id ∈ gatherValue (gather (tags.lookup ·) levels lineage) found value := by
  rw [gatherValue]
  split
  · exact mem_gather_of_mem h
  · split
    · exact h
    · exact List.mem_append_left _ h

/-- What one of the values adds is there in the end. -/
theorem mem_foldl_gatherValue {levels : Nat} {lineage values : List String} {value id : String}
    (hvalue : value ∈ values)
    (hid : ∀ found, id ∈ gatherValue (gather (tags.lookup ·) levels lineage) found value)
    (found : List String) :
    id ∈ values.foldl (gatherValue (gather (tags.lookup ·) levels lineage)) found := by
  obtain ⟨before, after, rfl⟩ := List.append_of_mem hvalue
  rw [List.foldl_append, List.foldl_cons]
  exact List.foldlRecOn after _ (hid _) fun found hmem _ _ => mem_gatherValue_of_mem hmem

/-- The items of a tag that is reached on a clear way are found. -/
theorem mem_gather_of_clear {levels : Nat} {lineage : List String} {tag other id : String}
    (hroom : Room tags levels lineage) (h : Clear tags lineage tag other)
    (hid : HasItem tags other id) (found : List String) :
    id ∈ gather (tags.lookup ·) levels lineage tag found := by
  induction h generalizing levels found with
  | @refl lineage tag htag =>
    have hentered : tag ∈ tags.map (·.1) := by
      by_contra hn
      rw [HasItem, valuesOf_eq_nil hn] at hid
      exact List.not_mem_nil hid.1
    obtain ⟨n, rfl, -⟩ := hroom.exists_room_cons hentered htag
    rw [gather_succ hentered htag]
    refine mem_foldl_gatherValue hid.1 (fun found => ?_) found
    rw [gatherValue, if_neg (Bool.eq_false_iff.1 hid.2)]
    split
    · next hmem => exact hmem
    · exact List.mem_append_right _ (List.mem_singleton_self id)
  | @step lineage tag next other htag hnext _ ih =>
    obtain ⟨-, value, hvalue, hname, rfl⟩ := hnext
    have hentered : tag ∈ tags.map (·.1) := by
      by_contra hn
      rw [valuesOf_eq_nil hn] at hvalue
      exact List.not_mem_nil hvalue
    obtain ⟨n, rfl, hroom'⟩ := hroom.exists_room_cons hentered htag
    rw [gather_succ hentered htag]
    -- The nested tag is entered with this one in the lineage, which the rest of the way avoids.
    refine mem_foldl_gatherValue hvalue (fun found => ?_) found
    rw [gatherValue, if_pos hname]
    exact ih hroom' hid found

/-- The items of a tag are those of the tags that are reached from it. -/
theorem mem_flatten_iff {tag id : String} :
    id ∈ flatten tags tag ↔ ∃ other, ReflTransGen (Refers tags) tag other ∧ HasItem tags other id := by
  constructor
  · have hnone : ∀ id ∈ ([] : List String),
        ∃ other, ReflTransGen (Refers tags) tag other ∧ HasItem tags other id :=
      List.forall_mem_nil _
    refine gather_induction (P := fun found => ∀ id ∈ found, ∃ other,
      ReflTransGen (Refers tags) tag other ∧ HasItem tags other id) hnone ?_ id
    intro other id found hreach hid _ hfound
    exact List.forall_mem_append.2 ⟨hfound, List.forall_mem_singleton.2 ⟨other, hreach, hid⟩⟩
  · rintro ⟨other, hreach, hid⟩
    exact mem_gather_of_clear (room_nil tags) (clear_of_reflTransGen hreach) hid []

theorem nodup_flatten (tag : String) : (flatten tags tag).Nodup :=
  gather_induction List.nodup_nil fun _ _ _ _ _ hnew hnodup =>
    List.nodup_append.2 ⟨hnodup, List.nodup_singleton _, by
      intro x hx y hy heq
      rw [heq, List.mem_singleton.1 hy] at hx
      exact hnew hx⟩

end RecipePlanner.Catalogue.Draft

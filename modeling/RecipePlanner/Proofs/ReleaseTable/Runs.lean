import Mathlib.Data.List.Induction
import Mathlib.Data.Set.Defs
import RecipePlanner.Catalogue
import RecipePlanner.Proofs.Release.Order

/-!
# Runs of insertions

After any run of insertions the entries of a table are those that were made: every release is among
them and its first entry has the value given last (`lookup_entries_ofInserts`, `mem_releases_iff`).
A search need not see them, because it stops at the first release that is not before the sought one
and the order of releases need not be transitive. A run is `Faithful` if searches, returned values
and the list of releases agree with what was inserted. All runs over some releases are faithful
exactly if none of these releases is wedged between two others (`faithful_iff_not_wedged`).

With no wedged release the entries stay in ascending order, which is the invariant that a search
relies on. With one, three insertions are enough to hide a release.
-/

namespace RecipePlanner.ReleaseTable

open Release

variable {α : Type}

/-! ## Runs -/

/-- The table after some insertions, made from first to last. -/
def ofInserts (es : List (Release × α)) : ReleaseTable α :=
  es.foldl (fun t e => (t.exchange e.1 e.2).2) empty

/-- The table answers for what was inserted. -/
structure Faithful (es : List (Release × α)) : Prop where
  /-- A release has the value of its last insertion, if there was one. -/
  get : ∀ v, (ofInserts es).get? v = es.reverse.lookup v
  /-- Every insertion returns the value that its release had until then. -/
  replaced : ∀ earlier v a later, es = earlier ++ (v, a) :: later →
    ((ofInserts earlier).exchange v a).1 = earlier.reverse.lookup v
  /-- No release is listed twice. -/
  once : (ofInserts es).releases.Nodup
  /-- The releases listed are those inserted. -/
  listed : ∀ v, v ∈ (ofInserts es).releases ↔ v ∈ es.map (·.1)

theorem ofInserts_append_singleton (es : List (Release × α)) (v : Release) (a : α) :
    ofInserts (es ++ [(v, a)]) = (ofInserts es).insert v a := by
  rw [ofInserts, List.foldl_append, List.foldl_cons, List.foldl_nil, exchange_eq]
  rfl

/-! ## Entries, whatever the releases -/

/-- A new value goes in front of any other entry of its release. -/
theorem lookup_insertIn (key : Release) (value : α) (es : List (Release × α)) (k : Release) :
    (insertIn key value es).lookup k = if k = key then some value else es.lookup k := by
  induction es with
  | nil => rw [insertIn, Keyed.lookup_cons]
  | cons e rest ih =>
    obtain ⟨k', v⟩ := e
    rw [insertIn]
    cases h : key.compare k' with
    | gt =>
      have hne : key ≠ k' := by
        rintro rfl
        rw [compare_eq_iff.2 rfl] at h
        cases h
      rw [Keyed.lookup_cons, Keyed.lookup_cons, ih]
      by_cases hk : k = k'
      · rw [if_pos hk, if_pos hk, if_neg (hk ▸ hne.symm)]
      · rw [if_neg hk, if_neg hk]
    | eq =>
      cases compare_eq_iff.1 h
      rw [Keyed.lookup_cons, Keyed.lookup_cons]
      by_cases hk : k = key
      · rw [if_pos hk, if_pos hk]
      · rw [if_neg hk, if_neg hk, if_neg hk]
    | lt => rw [Keyed.lookup_cons]

theorem mem_map_fst_insertIn {key : Release} {value : α} {es : List (Release × α)} {k : Release} :
    k ∈ (insertIn key value es).map (·.1) ↔ k = key ∨ k ∈ es.map (·.1) := by
  induction es with
  | nil => simp [insertIn]
  | cons e rest ih =>
    obtain ⟨k', v⟩ := e
    rw [insertIn]
    cases h : key.compare k' with
    | gt =>
      rw [List.map_cons, List.map_cons, List.mem_cons, List.mem_cons, ih]
      exact or_left_comm
    | eq =>
      cases compare_eq_iff.1 h
      simp
    | lt => rw [List.map_cons, List.mem_cons]

/-- The first entry of a release has the value of its last insertion. -/
theorem lookup_entries_ofInserts (es : List (Release × α)) (v : Release) :
    (ofInserts es).entries.lookup v = es.reverse.lookup v := by
  induction es using List.reverseRecOn with
  | nil => rfl
  | append_singleton es e ih =>
    obtain ⟨k, a⟩ := e
    rw [ofInserts_append_singleton, insert, lookup_insertIn, ih, List.reverse_append,
      List.reverse_singleton, List.singleton_append, Keyed.lookup_cons]

theorem mem_releases_iff (es : List (Release × α)) (v : Release) :
    v ∈ (ofInserts es).releases ↔ v ∈ es.map (·.1) := by
  induction es using List.reverseRecOn with
  | nil => exact Iff.rfl
  | append_singleton es e ih =>
    obtain ⟨k, a⟩ := e
    rw [releases] at ih
    rw [ofInserts_append_singleton, releases, insert, mem_map_fst_insertIn, ih, List.map_append,
      List.mem_append, List.map_singleton, List.mem_singleton]
    exact or_comm

/-- The entries are for releases that were inserted. -/
theorem forall_entries_ofInserts {names : Set Release} {es : List (Release × α)}
    (hes : ∀ e ∈ es, e.1 ∈ names) : ∀ k ∈ (ofInserts es).entries.map (·.1), k ∈ names := by
  intro k hk
  obtain ⟨e, he, rfl⟩ := List.mem_map.1 ((mem_releases_iff es k).1 hk)
  exact hes e he

/-- A search finds nothing for a release without entries. -/
theorem findIn_eq_none {key : Release} {es : List (Release × α)} (h : key ∉ es.map (·.1)) :
    findIn key es = none := by
  induction es with
  | nil => rfl
  | cons e rest ih =>
    obtain ⟨k, v⟩ := e
    rw [List.map_cons, List.mem_cons, not_or] at h
    rw [findIn]
    cases hk : key.compare k with
    | gt => exact ih h.2
    | eq => exact absurd (compare_eq_iff.1 hk) h.1
    | lt => rfl

/-! ## Entries in ascending order -/

/-- No three of the releases go round in a circle. -/
def Unwedged (names : Set Release) : Prop :=
  ∀ a ∈ names, ∀ b ∈ names, ∀ c ∈ names, ¬ Wedged a b c

/-- Among releases none of which is wedged the order is transitive. -/
theorem Unwedged.lt_trans {names : Set Release} (h : Unwedged names) {a b c : Release}
    (ha : a ∈ names) (hb : b ∈ names) (hc : c ∈ names) (hab : a.compare b = .lt)
    (hbc : b.compare c = .lt) : a.compare c = .lt := by
  cases hac : a.compare c with
  | lt => rfl
  | eq =>
    cases compare_eq_iff.1 hac
    exact absurd hbc (Std.OrientedCmp.not_lt_of_lt hab)
  | gt =>
    have hca : c.compare a = .lt := Std.OrientedCmp.lt_of_gt hac
    rcases cycle_iff_wedged.1 ⟨hab, hbc, hca⟩ with hw | hw | hw
    · exact absurd hw (h a ha b hb c hc)
    · exact absurd hw (h b hb c hc a ha)
    · exact absurd hw (h c hc a ha b hb)

/-- Every entry is before those behind it. -/
def Ascending (es : List (Release × α)) : Prop :=
  (es.map (·.1)).Pairwise fun a b => a.compare b = .lt

section Ascending

variable {names : Set Release}

/-- In ascending entries a search that stops has not passed over the release. -/
theorem findIn_eq_lookup (h : Unwedged names) {key : Release} (hkey : key ∈ names)
    {es : List (Release × α)} (hes : ∀ k ∈ es.map (·.1), k ∈ names) (hasc : Ascending es) :
    findIn key es = es.lookup key := by
  induction es with
  | nil => rfl
  | cons e rest ih =>
    obtain ⟨k, v⟩ := e
    rw [List.map_cons, List.forall_mem_cons] at hes
    obtain ⟨hfirst, hrest⟩ := List.pairwise_cons.1 hasc
    rw [findIn, Keyed.lookup_cons]
    cases hk : key.compare k with
    | gt =>
      have hne : key ≠ k := by
        rintro rfl
        rw [compare_eq_iff.2 rfl] at hk
        cases hk
      rw [if_neg hne]
      exact ih hes.2 hrest
    | eq => rw [if_pos (compare_eq_iff.1 hk)]
    | lt =>
      -- The release is before the first entry, hence before every entry.
      have hbefore : ∀ k' ∈ k :: rest.map (·.1), key.compare k' = .lt := by
        refine List.forall_mem_cons.2 ⟨hk, fun k' hk' => ?_⟩
        exact h.lt_trans hkey hes.1 (hes.2 k' hk') hk (hfirst k' hk')
      have hnot : key ∉ k :: rest.map (·.1) := by
        intro hmem
        have hself := hbefore key hmem
        rw [compare_eq_iff.2 rfl] at hself
        cases hself
      rw [List.mem_cons, not_or] at hnot
      rw [if_neg hnot.1, Keyed.lookup_eq_none_iff.2 hnot.2]

/-- Inserting keeps the entries ascending. -/
theorem ascending_insertIn (h : Unwedged names) {key : Release} (hkey : key ∈ names) (value : α)
    {es : List (Release × α)} (hes : ∀ k ∈ es.map (·.1), k ∈ names) (hasc : Ascending es) :
    Ascending (insertIn key value es) := by
  induction es with
  | nil => exact List.pairwise_singleton _ _
  | cons e rest ih =>
    obtain ⟨k, v⟩ := e
    have hnames := hes
    rw [List.map_cons, List.forall_mem_cons] at hnames
    obtain ⟨hfirst, hrest⟩ := List.pairwise_cons.1 hasc
    rw [insertIn]
    cases hk : key.compare k with
    | gt =>
      refine List.pairwise_cons.2 ⟨fun k' hk' => ?_, ih hnames.2 hrest⟩
      rcases mem_map_fst_insertIn.1 hk' with rfl | hk'
      · exact Std.OrientedCmp.lt_of_gt hk
      · exact hfirst k' hk'
    | eq => exact hasc
    | lt =>
      refine List.pairwise_cons.2 ⟨List.forall_mem_cons.2 ⟨hk, fun k' hk' => ?_⟩, hasc⟩
      exact h.lt_trans hkey hnames.1 (hnames.2 k' hk') hk (hfirst k' hk')

theorem ascending_ofInserts (h : Unwedged names) {es : List (Release × α)}
    (hes : ∀ e ∈ es, e.1 ∈ names) : Ascending (ofInserts es).entries := by
  induction es using List.reverseRecOn with
  | nil => exact List.Pairwise.nil
  | append_singleton es e ih =>
    obtain ⟨k, a⟩ := e
    obtain ⟨hbefore, hk⟩ := List.forall_mem_append.1 hes
    rw [ofInserts_append_singleton]
    exact ascending_insertIn h (hk _ (List.mem_singleton_self _)) a
      (forall_entries_ofInserts hbefore) (ih hbefore)

theorem nodup_of_ascending {es : List (Release × α)} (h : Ascending es) :
    (es.map (·.1)).Nodup := by
  refine List.Pairwise.imp (fun {a b} hab heq => ?_) h
  rw [compare_eq_iff.2 heq] at hab
  cases hab

/-- A search finds the value of the last insertion. -/
theorem get?_ofInserts (h : Unwedged names) {es : List (Release × α)}
    (hes : ∀ e ∈ es, e.1 ∈ names) (v : Release) :
    (ofInserts es).get? v = es.reverse.lookup v := by
  have hentries := forall_entries_ofInserts hes
  rw [get?, ← lookup_entries_ofInserts]
  by_cases hv : v ∈ (ofInserts es).entries.map (·.1)
  · exact findIn_eq_lookup h (hentries v hv) hentries (ascending_ofInserts h hes)
  · rw [findIn_eq_none hv, Keyed.lookup_eq_none_iff.2 hv]

end Ascending

/-! ## When all runs are faithful -/

/-- Among three releases that go round in a circle, the one inserted second is hidden by the one
inserted third. -/
theorem get?_ofInserts_of_cycle {a b c : Release} (hab : a.compare b = .lt)
    (hbc : b.compare c = .lt) (hca : c.compare a = .lt) (x y z : α) :
    (ofInserts [(b, x), (c, y), (a, z)]).get? c = none := by
  have hcb : c.compare b = .gt := Std.OrientedCmp.gt_of_lt hbc
  simp [ofInserts, exchange, exchangeIn, empty, get?, findIn, hab, hcb, hca]

/-- All runs over some releases are faithful exactly if no release among them is wedged between two
others. -/
theorem faithful_iff_not_wedged (names : Set Release) :
    (∀ es : List (Release × Catalogue), (∀ e ∈ es, e.1 ∈ names) → Faithful es) ↔
      ∀ a ∈ names, ∀ b ∈ names, ∀ c ∈ names, ¬ Wedged a b c := by
  constructor
  · intro h a ha b hb c hc hw
    obtain ⟨hab, hbc, hca⟩ := hw.cycle
    have hrun : Faithful [(b, (⟨[], []⟩ : Catalogue)), (c, ⟨[], []⟩), (a, ⟨[], []⟩)] := by
      apply h
      simp [ha, hb, hc]
    have hget := hrun.get c
    rw [get?_ofInserts_of_cycle hab hbc hca, eq_comm, Keyed.lookup_eq_none_iff] at hget
    simp at hget
  · intro h es hes
    refine ⟨get?_ofInserts h hes, fun earlier v a later hsplit => ?_, ?_, mem_releases_iff es⟩
    · rw [exchange_eq]
      apply get?_ofInserts h
      intro e he
      exact hes e (hsplit ▸ List.mem_append_left _ he)
    · exact nodup_of_ascending (ascending_ofInserts h hes)

/-- Not every run is faithful: `9` put in front of `10` hides `24w14a`, which is before `9`. -/
theorem not_forall_faithful : ¬ ∀ es : List (Release × Catalogue), Faithful es := by
  intro h
  have hget := (h [(⟨"10"⟩, ⟨[], []⟩), (⟨"24w14a"⟩, ⟨[], []⟩), (⟨"9"⟩, ⟨[], []⟩)]).get ⟨"24w14a"⟩
  have hhidden : ((ofInserts [(⟨"10"⟩, ⟨[], []⟩), (⟨"24w14a"⟩, ⟨[], []⟩), (⟨"9"⟩, ⟨[], []⟩)]).get?
      ⟨"24w14a"⟩ : Option Catalogue) = none := by decide
  rw [hhidden] at hget
  cases hget

end RecipePlanner.ReleaseTable

import RecipePlanner.Proofs.Release.Numeric
import RecipePlanner.Proofs.ReleaseTable.Runs
import RecipePlanner.Settings

/-!
# The latest release

The last entry of a table in ascending order is the one that all others are before. Names made of
numbers keep the entries ascending whatever the order of insertion, so among them the last one has
the greatest numbers (`isLatest_of_getLast?`). There is one such name in a set of names, so the last
entry depends on the set alone (`getLast?_releases_congr`). A planner that is told a release of the
table plans for that one, and for the last one otherwise (`activeRelease_eq`).
-/

namespace RecipePlanner

namespace ReleaseTable

open Release

variable {α : Type}

/-- One of the names, and all others are older. -/
structure IsLatest (names : List Release) (r : Release) : Prop where
  mem : r ∈ names
  older : ∀ other ∈ names, other = r ∨ Older other r

theorem IsLatest.unique {names : List Release} {r r' : Release} (h : IsLatest names r)
    (h' : IsLatest names r') : r = r' := by
  rcases h'.older r h.mem with heq | holder
  · exact heq
  · rcases h.older r' h'.mem with heq | holder'
    · exact heq.symm
    · exact absurd holder' holder.not_older

theorem IsLatest.of_mem_iff {names names' : List Release} (h : ∀ r, r ∈ names' ↔ r ∈ names)
    {r : Release} (hr : IsLatest names r) : IsLatest names' r :=
  ⟨(h r).2 hr.mem, fun other hother => hr.older other ((h other).1 hother)⟩

/-- No name made of numbers is wedged between others. -/
theorem unwedged_isNumeric : Unwedged {r | r.IsNumeric} :=
  fun _ ha b _ c _ => IsNumeric.not_wedged ha b c

theorem map_fst_latest? (t : ReleaseTable α) : t.latest?.map (·.1) = t.releases.getLast? :=
  List.getLast?_map.symm

section Numeric

variable {es : List (Release × α)}

/-- The last of the releases listed is the latest of those inserted. -/
theorem isLatest_of_getLast? (h : ∀ e ∈ es, e.1.IsNumeric) {r : Release}
    (hr : (ofInserts es).releases.getLast? = some r) : IsLatest (es.map (·.1)) r := by
  have hmem : ∀ other, other ∈ (ofInserts es).releases ↔ other ∈ es.map (·.1) :=
    mem_releases_iff es
  have hnumeric : ∀ other ∈ (ofInserts es).releases, other.IsNumeric :=
    @forall_entries_ofInserts α {r | r.IsNumeric} es h
  have hasc : (ofInserts es).releases.Pairwise fun a b => a.compare b = .lt :=
    ascending_ofInserts unwedged_isNumeric h
  refine IsLatest.of_mem_iff (fun other => (hmem other).symm) ⟨List.mem_of_getLast? hr, ?_⟩
  obtain ⟨before, heq⟩ := List.getLast?_eq_some_iff.1 hr
  rw [heq] at hasc hnumeric ⊢
  intro other hother
  rcases List.mem_append.1 hother with hbefore | hlast
  · have hlt := (List.pairwise_append.1 hasc).2.2 other hbefore r (List.mem_singleton_self r)
    have hr := hnumeric r (List.mem_append_right before (List.mem_singleton_self r))
    exact Or.inr ((compare_eq_lt_iff_older (hnumeric other hother) hr).1 hlt)
  · exact Or.inl (List.mem_singleton.1 hlast)

theorem getLast?_releases_eq_none_iff :
    (ofInserts es).releases.getLast? = none ↔ es = [] := by
  rw [List.getLast?_eq_none_iff, List.eq_nil_iff_forall_not_mem]
  constructor
  · intro h
    have hnames : es.map (·.1) = [] :=
      List.eq_nil_iff_forall_not_mem.2 fun r hr => h r ((mem_releases_iff es r).2 hr)
    exact List.map_eq_nil_iff.1 hnames
  · rintro rfl r hr
    cases (mem_releases_iff _ r).1 hr

section SameReleases

variable {es' : List (Release × α)} (hsame : ∀ r, r ∈ es'.map (·.1) ↔ r ∈ es.map (·.1))

include hsame

theorem forall_isNumeric_of_same (h : ∀ e ∈ es, e.1.IsNumeric) : ∀ e ∈ es', e.1.IsNumeric := by
  intro e he
  obtain ⟨e₀, he₀, heq⟩ := List.mem_map.1 ((hsame e.1).1 (List.mem_map_of_mem he))
  exact heq ▸ h e₀ he₀

/-- The last of the releases listed is the same whatever the order of the insertions. -/
theorem getLast?_releases_congr (h : ∀ e ∈ es, e.1.IsNumeric) :
    (ofInserts es').releases.getLast? = (ofInserts es).releases.getLast? := by
  have hempty : es' = [] ↔ es = [] := by
    rw [← @List.map_eq_nil_iff _ _ (·.1) es', ← @List.map_eq_nil_iff _ _ (·.1) es,
      List.eq_nil_iff_forall_not_mem, List.eq_nil_iff_forall_not_mem]
    exact forall_congr' fun r => not_congr (hsame r)
  cases hlast : (ofInserts es).releases.getLast? with
  | none =>
    rw [getLast?_releases_eq_none_iff] at hlast ⊢
    exact hempty.2 hlast
  | some r =>
    have hsome : (ofInserts es').releases.getLast? ≠ none := by
      rw [ne_eq, getLast?_releases_eq_none_iff, hempty, ← getLast?_releases_eq_none_iff, hlast]
      exact nofun
    obtain ⟨r', hr'⟩ := Option.ne_none_iff_exists'.1 hsome
    have hr : IsLatest (es'.map (·.1)) r := (isLatest_of_getLast? h hlast).of_mem_iff hsame
    rw [hr', hr.unique (isLatest_of_getLast? (forall_isNumeric_of_same hsame h) hr')]

end SameReleases

/-- A table of names made of numbers has a release exactly if it was inserted. -/
theorem isSome_get?_ofInserts (h : ∀ e ∈ es, e.1.IsNumeric) (r : Release) :
    ((ofInserts es).get? r).isSome ↔ r ∈ es.map (·.1) := by
  rw [get?_ofInserts unwedged_isNumeric h, Option.isSome_iff_ne_none, ne_eq,
    Keyed.lookup_eq_none_iff, not_not, List.map_reverse, List.mem_reverse]

end Numeric

end ReleaseTable

namespace Settings

open ReleaseTable

variable {α : Type}

/-- The active release is the one told, if the table has it, and else the last of the list. -/
theorem activeRelease_eq (s : Settings) (table : ReleaseTable α) :
    s.activeRelease table =
      (s.release.filter fun told => (table.get? told).isSome).or table.releases.getLast? := by
  rw [← map_fst_latest?, activeRelease]
  cases s.release with
  | none => rfl
  | some told => cases h : (table.get? told).isSome <;> simp [h, Option.filter_some]

/-- In a table of releases whose names are made of numbers the active release is the one told, if it
was inserted, and otherwise the one with the greatest numbers; there is none only if nothing was
inserted. The order of the insertions does not matter. -/
theorem activeRelease_of_numeric (s : Settings) {es : List (Release × α)}
    (h : ∀ e ∈ es, e.1.IsNumeric) :
    (∀ told, s.release = some told → told ∈ es.map (·.1) →
      s.activeRelease (ofInserts es) = some told) ∧
    ((∀ told, s.release = some told → told ∉ es.map (·.1)) →
      (es = [] → s.activeRelease (ofInserts es) = none) ∧
      (es ≠ [] → ∃ r, s.activeRelease (ofInserts es) = some r ∧ IsLatest (es.map (·.1)) r)) ∧
    ∀ es' : List (Release × α), (∀ r, r ∈ es'.map (·.1) ↔ r ∈ es.map (·.1)) →
      s.activeRelease (ofInserts es') = s.activeRelease (ofInserts es) := by
  refine ⟨fun told hs hmem => ?_, fun hnot => ?_, fun es' hsame => ?_⟩
  · rw [activeRelease_eq, hs, Option.filter_some, if_pos ((isSome_get?_ofInserts h told).2 hmem),
      Option.some_or]
  · have hnone : (s.release.filter fun told => ((ofInserts es).get? told).isSome) = none := by
      refine Option.filter_eq_none_iff.2 fun told hs hget => ?_
      exact hnot told hs ((isSome_get?_ofInserts h told).1 hget)
    rw [activeRelease_eq, hnone, Option.none_or]
    refine ⟨getLast?_releases_eq_none_iff.2, fun hne => ?_⟩
    obtain ⟨r, hr⟩ := Option.ne_none_iff_exists'.1 (mt getLast?_releases_eq_none_iff.1 hne)
    exact ⟨r, hr, isLatest_of_getLast? h hr⟩
  · have h' : ∀ e ∈ es', e.1.IsNumeric := forall_isNumeric_of_same hsame h
    have hget : ∀ told, ((ofInserts es').get? told).isSome = ((ofInserts es).get? told).isSome := by
      intro told
      rw [Bool.eq_iff_iff, isSome_get?_ofInserts h', isSome_get?_ofInserts h, hsame]
    rw [activeRelease_eq, activeRelease_eq, getLast?_releases_congr hsame h]
    simp only [hget]

/-- Releases whose numbers are written with and without zeros and with either separator. -/
def padded : List (Release × Unit) :=
  [(⟨"1.9"⟩, ()), (⟨"1.10"⟩, ()), (⟨"1.010"⟩, ()), (⟨"1-10"⟩, ()), (⟨"1"⟩, ())]

/-- Told a release that was not inserted, the planner takes `1.10`. -/
theorem activeRelease_of_numeric_padded :
    (∀ e ∈ padded, e.1.IsNumeric) ∧
      IsLatest (padded.map (·.1)) ⟨"1.10"⟩ ∧
      ({ standard with release := some ⟨"2.0"⟩ } : Settings).activeRelease (ofInserts padded) =
        some ⟨"1.10"⟩ := by
  have hnumeric : ∀ e ∈ padded, e.1.IsNumeric := by decide +kernel
  obtain ⟨-, hlatest, -⟩ :=
    activeRelease_of_numeric ({ standard with release := some ⟨"2.0"⟩ } : Settings) hnumeric
  have hnot : ∀ told, some (⟨"2.0"⟩ : Release) = some told → told ∉ padded.map (·.1) := by
    intro told htold
    cases htold
    decide +kernel
  obtain ⟨r, hactive, hr⟩ := (hlatest hnot).2 (List.cons_ne_nil _ _)
  have hten : ({ standard with release := some ⟨"2.0"⟩ } : Settings).activeRelease
      (ofInserts padded) = some ⟨"1.10"⟩ := by decide +kernel
  cases Option.some.inj (hactive.symm.trans hten)
  exact ⟨hnumeric, hr, hten⟩

end Settings

end RecipePlanner

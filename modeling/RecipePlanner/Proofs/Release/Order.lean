import RecipePlanner.Release

/-!
# How far release names are ordered

Exchanging two names reverses their comparison (`compare_swap`) and only a name compares as equal to
itself (`compare_eq_iff`). Transitivity fails exactly where a part that is no number stands, as a
text, between two numbers whose texts and values are in opposite order (`cycle_iff_wedged`): such a
part is `Wedged` between them, and the three names go round in a circle.

Both comparisons that a part can take part in are linear orders of their own; what fails is only
their mixture, so the proofs go by the number of parts, among three, that are numbers.
-/

namespace RecipePlanner.Release

/-! ## Parts -/

/-- Two parts in the order of their texts. -/
def compareText (p q : List Char) : Ordering :=
  Ord.compare (String.ofList p) (String.ofList q)

instance : Std.TransCmp compareText where
  eq_swap := Std.OrientedOrd.eq_swap
  isLE_trans := Std.TransOrd.isLE_trans

instance : Std.LawfulEqCmp compareText where
  compare_self := Std.ReflOrd.compare_self
  eq_of_compare h := String.ofList_injective (Std.LawfulEqOrd.eq_of_compare h)

theorem comparePart_of_numbers {p q : List Char} {m n : Nat} (hp : number? p = some m)
    (hq : number? q = some n) : comparePart p q = Ord.compare m n := by
  rw [comparePart, hp, hq]

theorem comparePart_of_left {p q : List Char} (hp : number? p = none) :
    comparePart p q = compareText p q := by
  rw [comparePart, hp]
  rfl

theorem comparePart_of_right {p q : List Char} (hq : number? q = none) :
    comparePart p q = compareText p q := by
  rw [comparePart, hq]
  cases number? p <;> rfl

instance : Std.OrientedCmp comparePart where
  eq_swap {p q} := by
    cases hp : number? p with
    | none =>
      rw [comparePart_of_left hp, comparePart_of_right hp]
      exact Std.OrientedCmp.eq_swap
    | some m =>
      cases hq : number? q with
      | none =>
        rw [comparePart_of_right hq, comparePart_of_left hq]
        exact Std.OrientedCmp.eq_swap
      | some n =>
        rw [comparePart_of_numbers hp hq, comparePart_of_numbers hq hp]
        exact Std.OrientedOrd.eq_swap

/-- Parts compare as equal if they are the same text or the same number. -/
theorem comparePart_eq_iff {p q : List Char} :
    comparePart p q = .eq ↔ p = q ∨ ∃ n, number? p = some n ∧ number? q = some n := by
  cases hp : number? p with
  | none => simp [comparePart_of_left hp, Std.LawfulEqCmp.compare_eq_iff_eq]
  | some m =>
    cases hq : number? q with
    | none => simp [comparePart_of_right hq, Std.LawfulEqCmp.compare_eq_iff_eq]
    | some n =>
      rw [comparePart_of_numbers hp hq, Std.LawfulEqOrd.compare_eq_iff_eq]
      constructor
      · rintro rfl
        exact Or.inr ⟨m, rfl, rfl⟩
      · rintro (rfl | ⟨k, hm, hn⟩)
        · exact Option.some.inj (hp.symm.trans hq)
        · cases hm
          cases hn
          rfl

theorem comparePart_eq_trans {p q r : List Char} (hpq : comparePart p q = .eq)
    (hqr : comparePart q r = .eq) : comparePart p r = .eq := by
  -- Equal parts need not be equal texts: `07` and `7` are the same number.
  rcases comparePart_eq_iff.1 hpq with rfl | ⟨m, hp, hq⟩
  · exact hqr
  · rcases comparePart_eq_iff.1 hqr with rfl | ⟨n, hq', hr⟩
    · exact hpq
    · cases hq.symm.trans hq'
      exact comparePart_eq_iff.2 (Or.inr ⟨m, hp, hr⟩)

/-- A part that is no number stands, as a text, behind the number `r` and before the number `q`. -/
structure WedgedPart (p q r : List Char) : Prop where
  word : number? p = none
  upper : (number? q).isSome
  lower : (number? r).isSome
  behind : compareText r p = .lt
  before : compareText p q = .lt

theorem isLE_text_lt {p q : List Char} (h : (compareText p q).isLE) (hne : p ≠ q) :
    compareText p q = .lt :=
  (Ordering.isLE_iff_eq_lt_or_eq_eq.1 h).resolve_right
    fun he => hne (Std.LawfulEqCmp.eq_of_compare he)

theorem wedgedPart_of_between {p q r : List Char} {m n : Nat} (hp : number? p = none)
    (hq : number? q = some m) (hr : number? r = some n) (hpq : (comparePart p q).isLE)
    (hrp : (comparePart r p).isLE) : WedgedPart p q r := by
  rw [comparePart_of_left hp] at hpq
  rw [comparePart_of_right hp] at hrp
  refine ⟨hp, by rw [hq]; rfl, by rw [hr]; rfl, isLE_text_lt hrp ?_, isLE_text_lt hpq ?_⟩
  · rintro rfl
    cases hp.symm.trans hr
  · rintro rfl
    cases hp.symm.trans hq

/-- In a linear order nothing goes round in a circle. -/
theorem eq_of_cycle {α : Type} {cmp : α → α → Ordering} [Std.TransCmp cmp] {a b c : α}
    (hab : (cmp a b).isLE) (hbc : (cmp b c).isLE) (hca : (cmp c a).isLE) :
    cmp a b = .eq ∧ cmp b c = .eq ∧ cmp c a = .eq :=
  ⟨Std.OrientedCmp.isLE_antisymm hab (Std.TransCmp.isLE_trans hbc hca),
    Std.OrientedCmp.isLE_antisymm hbc (Std.TransCmp.isLE_trans hca hab),
    Std.OrientedCmp.isLE_antisymm hca (Std.TransCmp.isLE_trans hab hbc)⟩

/-- Three parts that go round in a circle are all equal, unless one is wedged between the others. -/
theorem eq_or_wedgedPart_of_cycle {p q r : List Char} (hpq : (comparePart p q).isLE)
    (hqr : (comparePart q r).isLE) (hrp : (comparePart r p).isLE) :
    (comparePart p q = .eq ∧ comparePart q r = .eq ∧ comparePart r p = .eq) ∨
      WedgedPart p q r ∨ WedgedPart q r p ∨ WedgedPart r p q := by
  cases hp : number? p with
  | none =>
    cases hq : number? q with
    | none =>
      -- No two of the three are numbers, so all comparisons are of texts.
      rw [comparePart_of_left hp] at hpq ⊢
      rw [comparePart_of_left hq] at hqr ⊢
      rw [comparePart_of_right hp] at hrp ⊢
      exact Or.inl (eq_of_cycle hpq hqr hrp)
    | some m =>
      cases hr : number? r with
      | none =>
        rw [comparePart_of_left hp] at hpq ⊢
        rw [comparePart_of_right hr] at hqr ⊢
        rw [comparePart_of_right hp] at hrp ⊢
        exact Or.inl (eq_of_cycle hpq hqr hrp)
      | some n => exact Or.inr (Or.inl (wedgedPart_of_between hp hq hr hpq hrp))
  | some k =>
    cases hq : number? q with
    | none =>
      cases hr : number? r with
      | none =>
        rw [comparePart_of_right hq] at hpq ⊢
        rw [comparePart_of_left hq] at hqr ⊢
        rw [comparePart_of_left hr] at hrp ⊢
        exact Or.inl (eq_of_cycle hpq hqr hrp)
      | some n => exact Or.inr (Or.inr (Or.inl (wedgedPart_of_between hq hr hp hqr hpq)))
    | some m =>
      cases hr : number? r with
      | none => exact Or.inr (Or.inr (Or.inr (wedgedPart_of_between hr hp hq hrp hqr)))
      | some n =>
        rw [comparePart_of_numbers hp hq] at hpq ⊢
        rw [comparePart_of_numbers hq hr] at hqr ⊢
        rw [comparePart_of_numbers hr hp] at hrp ⊢
        exact Or.inl (eq_of_cycle hpq hqr hrp)

/-! ## Lists of parts -/

theorem compareParts_swap (as bs : List (List Char)) :
    compareParts as bs = (compareParts bs as).swap := by
  induction as generalizing bs with
  | nil => cases bs <;> rfl
  | cons a as ih =>
    cases bs with
    | nil => rfl
    | cons b bs =>
      have hab : comparePart a b = (comparePart b a).swap := Std.OrientedCmp.eq_swap
      rw [compareParts, compareParts, Ordering.swap_then, ← ih bs, ← hab]

/-- At the first place where three lists of parts do not agree, the part of the first is wedged
between those of the others. -/
inductive WedgedParts : List (List Char) → List (List Char) → List (List Char) → Prop where
  | here {p q r : List Char} {ps qs rs : List (List Char)} (h : WedgedPart p q r) :
      WedgedParts (p :: ps) (q :: qs) (r :: rs)
  | there {p q r : List Char} {ps qs rs : List (List Char)} (hpq : comparePart p q = .eq)
      (hqr : comparePart q r = .eq) (h : WedgedParts ps qs rs) :
      WedgedParts (p :: ps) (q :: qs) (r :: rs)

theorem compareParts_cons_isLE {a b : List Char} {as bs : List (List Char)}
    (h : (compareParts (a :: as) (b :: bs)).isLE) :
    (comparePart a b).isLE ∧ (comparePart a b = .eq → (compareParts as bs).isLE) := by
  rw [compareParts] at h
  refine ⟨Ordering.isLE_left_of_isLE_then h, fun he => ?_⟩
  rwa [he, Ordering.eq_then] at h

/-- A wedged list is before the upper list and behind the lower one. -/
theorem WedgedParts.lt {as bs cs : List (List Char)} (h : WedgedParts as bs cs) :
    compareParts as bs = .lt ∧ compareParts cs as = .lt := by
  induction h with
  | here h =>
    rw [compareParts, compareParts, comparePart_of_left h.word, comparePart_of_right h.word,
      h.before, h.behind]
    exact ⟨rfl, rfl⟩
  | @there p q r ps qs rs hpq hqr _ ih =>
    have hrp : comparePart r p = .eq := Std.OrientedCmp.eq_symm (comparePart_eq_trans hpq hqr)
    rw [compareParts, compareParts, hpq, hrp]
    exact ih

/-- Three lists of parts that go round in a circle agree everywhere, unless one is wedged between
the others. -/
theorem eq_or_wedgedParts_of_cycle {as bs cs : List (List Char)}
    (hab : (compareParts as bs).isLE) (hbc : (compareParts bs cs).isLE)
    (hca : (compareParts cs as).isLE) :
    (compareParts as bs = .eq ∧ compareParts bs cs = .eq ∧ compareParts cs as = .eq) ∨
      WedgedParts as bs cs ∨ WedgedParts bs cs as ∨ WedgedParts cs as bs := by
  induction as generalizing bs cs with
  | nil =>
    cases cs with
    | cons c cs => cases hca
    | nil =>
      cases bs with
      | cons b bs => cases hbc
      | nil => exact Or.inl ⟨rfl, rfl, rfl⟩
  | cons a as ih =>
    cases bs with
    | nil => cases hab
    | cons b bs =>
      cases cs with
      | nil => cases hbc
      | cons c cs =>
        -- The rest of the lists matters only where the three first parts agree.
        obtain ⟨hab, habs⟩ := compareParts_cons_isLE hab
        obtain ⟨hbc, hbcs⟩ := compareParts_cons_isLE hbc
        obtain ⟨hca, hcas⟩ := compareParts_cons_isLE hca
        rcases eq_or_wedgedPart_of_cycle hab hbc hca with ⟨eab, ebc, eca⟩ | h | h | h
        · rw [compareParts, compareParts, compareParts, eab, ebc, eca]
          rcases ih (habs eab) (hbcs ebc) (hcas eca) with heq | h | h | h
          · exact Or.inl heq
          · exact Or.inr (Or.inl (.there eab ebc h))
          · exact Or.inr (Or.inr (Or.inl (.there ebc eca h)))
          · exact Or.inr (Or.inr (Or.inr (.there eca eab h)))
        · exact Or.inr (Or.inl (.here h))
        · exact Or.inr (Or.inr (Or.inl (.here h)))
        · exact Or.inr (Or.inr (Or.inr (.here h)))

/-! ## Names -/

/-- Exchanging two names reverses their comparison. -/
theorem compare_swap (a b : Release) : compare a b = (compare b a).swap := by
  have htext : Ord.compare a.text b.text = (Ord.compare b.text a.text).swap :=
    Std.OrientedOrd.eq_swap
  rw [compare, compare, Ordering.swap_then, ← compareParts_swap, ← htext]

instance : Std.OrientedCmp compare where
  eq_swap := compare_swap _ _

theorem compareParts_self (as : List (List Char)) : compareParts as as = .eq := by
  induction as with
  | nil => rfl
  | cons a as ih => rw [compareParts, comparePart_eq_iff.2 (Or.inl rfl), ih]; rfl

/-- Two names compare as equal exactly if they are the same text. -/
theorem compare_eq_iff {a b : Release} : compare a b = .eq ↔ a = b := by
  constructor
  · intro h
    rw [compare, Ordering.then_eq_eq] at h
    have htext : a.text = b.text := Std.LawfulEqOrd.eq_of_compare h.2
    cases a
    cases b
    exact congrArg mk htext
  · rintro rfl
    rw [compare, compareParts_self]
    exact Std.ReflOrd.compare_self

/-- At the first place where the parts of three names do not all agree, `x` has a part that is no
number while `y` and `z` have numbers; as texts these stand on both sides of it, that of `z` below
and that of `y` above, yet `y` is before `z`. -/
structure Wedged (x y z : Release) : Prop where
  parts : WedgedParts x.parts y.parts z.parts
  before : compare y z = .lt

theorem lt_of_compareParts_lt {a b : Release} (h : compareParts a.parts b.parts = .lt) :
    compare a b = .lt := by
  rw [compare, h]
  rfl

theorem isLE_compareParts {a b : Release} (h : compare a b = .lt) :
    (compareParts a.parts b.parts).isLE := by
  rw [compare, Ordering.then_eq_lt] at h
  rcases h with h | ⟨h, -⟩
  · rw [h]
    rfl
  · rw [h]
    rfl

theorem Wedged.cycle {x y z : Release} (h : Wedged x y z) :
    compare x y = .lt ∧ compare y z = .lt ∧ compare z x = .lt :=
  ⟨lt_of_compareParts_lt h.parts.lt.1, h.before, lt_of_compareParts_lt h.parts.lt.2⟩

/-- Three names go round in a circle exactly if one of them is wedged between the others. -/
theorem cycle_iff_wedged {a b c : Release} :
    (compare a b = .lt ∧ compare b c = .lt ∧ compare c a = .lt) ↔
      Wedged a b c ∨ Wedged b c a ∨ Wedged c a b := by
  constructor
  · rintro ⟨hab, hbc, hca⟩
    rcases eq_or_wedgedParts_of_cycle (isLE_compareParts hab) (isLE_compareParts hbc)
      (isLE_compareParts hca) with ⟨eab, ebc, eca⟩ | h | h | h
    · -- All parts agree, so the texts decide, and they are in a linear order.
      rw [compare, eab, Ordering.eq_then] at hab
      rw [compare, ebc, Ordering.eq_then] at hbc
      rw [compare, eca, Ordering.eq_then] at hca
      have hac := Std.TransCmp.lt_trans hab hbc
      exact absurd hca (Std.OrientedCmp.not_lt_of_lt hac)
    · exact Or.inl ⟨h, hbc⟩
    · exact Or.inr (Or.inl ⟨h, hca⟩)
    · exact Or.inr (Or.inr ⟨h, hab⟩)
  · rintro (h | h | h)
    · exact h.cycle
    · obtain ⟨hbc, hca, hab⟩ := h.cycle
      exact ⟨hab, hbc, hca⟩
    · obtain ⟨hca, hab, hbc⟩ := h.cycle
      exact ⟨hab, hbc, hca⟩

/-- Comparing two names the other way round gives the reverse, only a name compares as equal to
itself, and the order carries over from `a`, `b` and `b`, `c` to `a`, `c` unless one of the three is
wedged between the others. -/
theorem compare_laws_up_to_wedged (a b c : Release) :
    compare b a = (compare a b).swap ∧ (compare a b = .eq ↔ a = b) ∧
      ((compare a b = .lt ∧ compare b c = .lt ∧ compare a c ≠ .lt) ↔
        Wedged a b c ∨ Wedged b c a ∨ Wedged c a b) := by
  refine ⟨compare_swap b a, compare_eq_iff, ?_⟩
  rw [← cycle_iff_wedged]
  refine and_congr_right fun hab => and_congr_right fun hbc => ?_
  constructor
  · intro hac
    -- If `a` and `c` were equal, `b` would stand both before and behind them.
    have hne : compare a c ≠ .eq := by
      intro he
      cases compare_eq_iff.1 he
      exact Std.OrientedCmp.not_lt_of_lt hab hbc
    cases h : compare a c with
    | lt => exact absurd h hac
    | eq => exact absurd h hne
    | gt => exact Std.OrientedCmp.lt_of_gt h
  · exact fun hca => Std.OrientedCmp.not_lt_of_lt hca

/-- The order is not transitive: `9` is before `10` and `10` before `24w14a`, but `24w14a` is before
`9`. -/
theorem not_compare_lt_trans :
    ¬ ∀ a b c : Release, compare a b = .lt → compare b c = .lt → compare a c = .lt := by
  intro h
  have hac := h ⟨"9"⟩ ⟨"10"⟩ ⟨"24w14a"⟩ (by decide) (by decide)
  exact absurd hac (by decide)

end RecipePlanner.Release

import RecipePlanner.Proofs.Release.Order

/-!
# Names made of numbers

Names all of whose parts are decimal numerals are ordered by the lists of their numbers, part by
part, a proper beginning before the longer list, and by their texts where the numbers are the same
(`compare_eq_lt_iff_older`). No such name is wedged between others (`IsNumeric.not_wedged`), so
among them the order is linear: `1.9` is before `1.10`, and `1-0`, `1.0` and `1.00` are three names
in the order of their texts.
-/

namespace RecipePlanner.Release

/-- A part of decimal digits whose number fits 64 bits. -/
structure IsNumeral (part : List Char) : Prop where
  ne_nil : part ≠ []
  digits : ∀ c ∈ part, c.isDigit = true
  le_max : digitsValue part ≤ Word.max64

instance (part : List Char) : Decidable (IsNumeral part) :=
  decidable_of_iff
    (part ≠ [] ∧ part.all Char.isDigit = true ∧ digitsValue part ≤ Word.max64)
    ⟨fun h => ⟨h.1, List.all_eq_true.1 h.2.1, h.2.2⟩,
      fun h => ⟨h.ne_nil, List.all_eq_true.2 h.digits, h.le_max⟩⟩

/-- All parts of the name are decimal numerals. -/
def IsNumeric (r : Release) : Prop := ∀ part ∈ r.parts, IsNumeral part

instance (r : Release) : Decidable r.IsNumeric :=
  inferInstanceAs (Decidable (∀ part ∈ r.parts, IsNumeral part))

/-- The numbers between the dots and hyphens of a name. -/
def numbers (r : Release) : List Nat := r.parts.map digitsValue

/-- The numbers of the first name come before those of the second in lexicographic order, or they
are the same and its text comes before. -/
def Older (a b : Release) : Prop := a.numbers < b.numbers ∨ a.numbers = b.numbers ∧ a.text < b.text

theorem Older.not_older {a b : Release} (h : Older a b) : ¬ Older b a := by
  rintro (hba | ⟨heq, hba⟩)
  · rcases h with hab | ⟨heq, -⟩
    · exact List.lt_asymm hab hba
    · rw [heq] at hba
      exact List.lt_irrefl _ hba
  · rcases h with hab | ⟨-, hab⟩
    · rw [heq] at hab
      exact List.lt_irrefl _ hab
    · exact String.lt_asymm hab hba

/-! ## Parts -/

theorem number?_of_isNumeral {part : List Char} (h : IsNumeral part) :
    number? part = some (digitsValue part) := by
  have hall : part.all Char.isDigit = true := List.all_eq_true.2 h.digits
  cases part with
  | nil => exact absurd rfl h.ne_nil
  | cons c cs =>
    -- A sign in front is no digit.
    have hsign : c ≠ '+' := by
      rintro rfl
      exact absurd (h.digits '+' List.mem_cons_self) (by decide)
    rw [number?]
    · exact if_pos ⟨h.ne_nil, hall, h.le_max⟩
    · intro rest heq
      exact hsign (List.cons.inj heq).1

theorem comparePart_of_isNumeral {p q : List Char} (hp : IsNumeral p) (hq : IsNumeral q) :
    comparePart p q = Ord.compare (digitsValue p) (digitsValue q) :=
  comparePart_of_numbers (number?_of_isNumeral hp) (number?_of_isNumeral hq)

section Parts

variable {ps qs : List (List Char)}

theorem compareParts_eq_eq_iff (hps : ∀ p ∈ ps, IsNumeral p) (hqs : ∀ q ∈ qs, IsNumeral q) :
    compareParts ps qs = .eq ↔ ps.map digitsValue = qs.map digitsValue := by
  induction ps generalizing qs with
  | nil => cases qs <;> simp [compareParts]
  | cons p ps ih =>
    cases qs with
    | nil => simp [compareParts]
    | cons q qs =>
      obtain ⟨hp, hps⟩ := List.forall_mem_cons.1 hps
      obtain ⟨hq, hqs⟩ := List.forall_mem_cons.1 hqs
      rw [compareParts, comparePart_of_isNumeral hp hq, Ordering.then_eq_eq, ih hps hqs,
        Nat.compare_eq_eq, List.map_cons, List.map_cons, List.cons.injEq]

theorem compareParts_eq_lt_iff (hps : ∀ p ∈ ps, IsNumeral p) (hqs : ∀ q ∈ qs, IsNumeral q) :
    compareParts ps qs = .lt ↔ ps.map digitsValue < qs.map digitsValue := by
  induction ps generalizing qs with
  | nil => cases qs <;> simp [compareParts]
  | cons p ps ih =>
    cases qs with
    | nil => simp [compareParts]
    | cons q qs =>
      obtain ⟨hp, hps⟩ := List.forall_mem_cons.1 hps
      obtain ⟨hq, hqs⟩ := List.forall_mem_cons.1 hqs
      rw [compareParts, comparePart_of_isNumeral hp hq, Ordering.then_eq_lt, ih hps hqs,
        Nat.compare_eq_lt, Nat.compare_eq_eq, List.map_cons, List.map_cons, List.cons_lt_cons_iff]

end Parts

/-! ## Names -/

theorem compare_text_eq_lt_iff {s t : String} : Ord.compare s t = .lt ↔ s < t := by
  simp only [Ord.compare]
  exact compareOfLessAndEq_eq_lt

/-- Names made of numbers are ordered by these, and by their texts if the numbers are the same. -/
theorem compare_eq_lt_iff_older {a b : Release} (ha : a.IsNumeric) (hb : b.IsNumeric) :
    compare a b = .lt ↔ Older a b := by
  rw [compare, Ordering.then_eq_lt, compareParts_eq_lt_iff ha hb, compareParts_eq_eq_iff ha hb,
    compare_text_eq_lt_iff]
  rfl

theorem WedgedParts.exists_word {as bs cs : List (List Char)} (h : WedgedParts as bs cs) :
    ∃ part ∈ as, number? part = none := by
  induction h with
  | here h => exact ⟨_, List.mem_cons_self, h.word⟩
  | there _ _ _ ih =>
    obtain ⟨part, hpart, hword⟩ := ih
    exact ⟨part, List.mem_cons_of_mem _ hpart, hword⟩

/-- A name made of numbers has no part that could be wedged. -/
theorem IsNumeric.not_wedged {x : Release} (h : x.IsNumeric) (y z : Release) : ¬ Wedged x y z := by
  intro hw
  obtain ⟨part, hpart, hword⟩ := hw.parts.exists_word
  rw [number?_of_isNumeral (h part hpart)] at hword
  cases hword

end RecipePlanner.Release

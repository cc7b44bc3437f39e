import RecipePlanner.Text.Bytes

/-!
# Texts in the order of their bytes

Texts are in the same order whether they are compared by characters or by bytes (`bytes_lt_bytes`). This
is a property of the encoding: the number of bytes of a character shows in the first of them, and grows
with its code; characters with as many bytes have the digits of their codes in these.
-/

namespace RecipePlanner.Text

/-! ## One byte -/

theorem ofNat_cons_lt {m n : Nat} (hmn : m < n) (hn : n < 256) (xs ys : List UInt8) :
    UInt8.ofNat m :: xs < UInt8.ofNat n :: ys := by
  apply List.Lex.rel
  rw [UInt8.lt_iff_toNat_lt, UInt8.toNat_ofNat', UInt8.toNat_ofNat']
  omega

theorem ofNat_cons_lt_of_le {m n : Nat} (hmn : m ≤ n) (hn : n < 256) {xs ys : List UInt8}
    (h : m = n → xs < ys) : UInt8.ofNat m :: xs < UInt8.ofNat n :: ys := by
  rcases Nat.lt_or_eq_of_le hmn with hlt | rfl
  · exact ofNat_cons_lt hlt hn xs ys
  · exact List.Lex.cons (h rfl)

/-! ## Characters and texts -/

/-- The bytes of a character come before those of a later one, whatever stands behind the two. -/
theorem utf8EncodeChar_append_lt {c d : Char} (h : c < d) (xs ys : List UInt8) :
    String.utf8EncodeChar c ++ xs < String.utf8EncodeChar d ++ ys := by
  have hlt : c.val.toNat < d.val.toNat := h
  have hbound : d.val.toNat < 0x110000 := by
    rcases d.valid with hlow | ⟨-, hhigh⟩
    · exact Nat.lt_trans hlow (by decide)
    · exact hhigh
  rw [String.utf8EncodeChar.eq_def c, String.utf8EncodeChar.eq_def d]
  dsimp only
  generalize c.val.toNat = m at *
  generalize d.val.toNat = n at *
  -- With fewer bytes the first one is smaller; with as many, the digits in base 64 decide.
  by_cases hm₁ : m ≤ 127
  · rw [if_pos hm₁]
    split
    · exact ofNat_cons_lt hlt (by omega) xs ys
    · split
      · exact ofNat_cons_lt (by omega) (by omega) _ _
      · split <;> exact ofNat_cons_lt (by omega) (by omega) _ _
  · rw [if_neg hm₁, if_neg (show ¬ n ≤ 127 by omega)]
    by_cases hm₂ : m ≤ 2047
    · rw [if_pos hm₂]
      split
      · exact ofNat_cons_lt_of_le (by omega) (by omega) fun _ =>
          ofNat_cons_lt (by omega) (by omega) _ _
      · split <;> exact ofNat_cons_lt (by omega) (by omega) _ _
    · rw [if_neg hm₂, if_neg (show ¬ n ≤ 2047 by omega)]
      by_cases hm₃ : m ≤ 65535
      · rw [if_pos hm₃]
        split
        · exact ofNat_cons_lt_of_le (by omega) (by omega) fun _ =>
            ofNat_cons_lt_of_le (by omega) (by omega) fun _ =>
              ofNat_cons_lt (by omega) (by omega) _ _
        · exact ofNat_cons_lt (by omega) (by omega) _ _
      · rw [if_neg hm₃, if_neg (show ¬ n ≤ 65535 by omega)]
        exact ofNat_cons_lt_of_le (by omega) (by omega) fun _ =>
          ofNat_cons_lt_of_le (by omega) (by omega) fun _ =>
            ofNat_cons_lt_of_le (by omega) (by omega) fun _ =>
              ofNat_cons_lt (by omega) (by omega) _ _

/-- Texts are ordered as their bytes are. -/
theorem bytes_lt_bytes {s t : String} (h : s < t) : bytes s < bytes t := by
  have hchars : s.toList < t.toList := h
  rw [bytes_eq_flatMap, bytes_eq_flatMap]
  generalize s.toList = cs at hchars
  generalize t.toList = ds at hchars
  clear h
  induction hchars with
  | @nil c cs =>
    rw [List.flatMap_nil, List.flatMap_cons]
    obtain ⟨b, bs, hb⟩ := List.exists_cons_of_ne_nil (@String.utf8EncodeChar_ne_nil c)
    rw [hb]
    exact List.Lex.nil
  | rel hcd =>
    rw [List.flatMap_cons, List.flatMap_cons]
    exact utf8EncodeChar_append_lt hcd _ _
  | cons _ ih =>
    rw [List.flatMap_cons, List.flatMap_cons]
    exact List.append_left_lt ih

end RecipePlanner.Text

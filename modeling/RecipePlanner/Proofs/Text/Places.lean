import Mathlib.Data.String.Basic
import RecipePlanner.Text.Bytes

/-!
# Places in a text

A place in a text is the number of bytes in front of it. It lies between two characters exactly if
the text is put together of two texts there (`IsAt`); a place inside a character is none. In front
of a byte below 128 there is always such a place (`exists_append_of_bytes_eq`), and that byte is
the character that stands there (`eq_append_of_bytes_eq_cons`).
-/

namespace RecipePlanner.Text

theorem bytes_append (s t : String) : bytes (s ++ t) = bytes s ++ bytes t := by
  rw [bytes_eq_flatMap, String.toList_append, List.flatMap_append, ← bytes_eq_flatMap,
    ← bytes_eq_flatMap]

theorem length_bytes (s : String) : (bytes s).length = s.utf8ByteSize := by
  rw [← String.size_toByteArray]
  rfl

/-! ## Cutting a text in front of an ASCII character -/

theorem getUTF8Byte_eq (s : String) (p : String.Pos.Raw) (h : p < s.rawEndPos) :
    (bytes s)[p.byteIdx]? = some (s.getUTF8Byte p h) := by
  have hlt : p.byteIdx < s.toByteArray.size := h
  rw [String.getUTF8Byte, ByteArray.getElem_eq_getElem_data, bytes, Array.getElem?_toList,
    Array.getElem?_eq_getElem hlt]

theorem isUTF8FirstByte_of_lt : ∀ b : UInt8, b < 128 → b.IsUTF8FirstByte :=
  forall_byte (by decide +kernel)

/-- In front of a byte below 128 a text can be cut into two texts. -/
theorem exists_append_of_bytes_eq {s : String} {front rest : List UInt8}
    (h : bytes s = front ++ rest) (hrest : ∀ b ∈ rest.head?, b < 128) :
    ∃ before after, s = before ++ after ∧ bytes before = front ∧ bytes after = rest := by
  have hsize : s.utf8ByteSize = front.length + rest.length := by
    rw [← length_bytes, h, List.length_append]
  have hvalid : String.Pos.Raw.IsValid s ⟨front.length⟩ := by
    rw [String.Pos.Raw.isValid_iff_isUTF8FirstByte, String.Pos.Raw.ext_iff,
      String.byteIdx_rawEndPos, hsize]
    cases rest with
    | nil => exact Or.inl rfl
    | cons b rest =>
      have hlt : (⟨front.length⟩ : String.Pos.Raw) < s.rawEndPos := by
        rw [String.Pos.Raw.lt_iff, String.byteIdx_rawEndPos, hsize, List.length_cons]
        exact Nat.lt_add_of_pos_right (Nat.succ_pos _)
      have hbyte := getUTF8Byte_eq s _ hlt
      rw [h, List.getElem?_append_right (Nat.le_refl _), Nat.sub_self, List.getElem?_cons_zero,
        Option.some.injEq] at hbyte
      refine Or.inr ⟨hlt, ?_⟩
      rw [← hbyte]
      exact isUTF8FirstByte_of_lt b (hrest b rfl)
  obtain ⟨before, after, rfl, hpos⟩ := String.Pos.Raw.isValid_iff_exists_append.1 hvalid
  rw [bytes_append] at h
  have hlength : (bytes before).length = front.length := by
    rw [length_bytes]
    exact (congrArg String.Pos.Raw.byteIdx hpos).symm
  obtain ⟨hbefore, hafter⟩ := List.append_inj h hlength
  exact ⟨before, after, rfl, hbefore, hafter⟩

/-- A character whose bytes begin with one below 128 has no other byte and this code. -/
theorem eq_of_utf8EncodeChar_eq_cons {c : Char} {b : UInt8} {bs : List UInt8}
    (h : String.utf8EncodeChar c = b :: bs) (hb : b < 128) :
    bs = [] ∧ c = Char.ofNat b.toNat := by
  have hcode : b.toNat < 128 := UInt8.lt_iff_toNat_lt.1 hb
  rw [String.utf8EncodeChar.eq_def] at h
  simp only at h
  -- The first of several bytes is at least 192.
  split at h
  · obtain ⟨rfl, rfl⟩ := List.cons_eq_cons.1 h
    rw [UInt8.toNat_ofNat', Nat.mod_eq_of_lt (by omega)]
    exact ⟨rfl, (Char.ofNat_toNat c).symm⟩
  · split at h
    · obtain ⟨rfl, -⟩ := List.cons_eq_cons.1 h
      rw [UInt8.toNat_ofNat'] at hcode
      omega
    · split at h
      · obtain ⟨rfl, -⟩ := List.cons_eq_cons.1 h
        rw [UInt8.toNat_ofNat'] at hcode
        omega
      · obtain ⟨rfl, -⟩ := List.cons_eq_cons.1 h
        rw [UInt8.toNat_ofNat'] at hcode
        omega

/-- A byte below 128 at the front is the first character of the text. -/
theorem eq_append_of_bytes_eq_cons {s : String} {b : UInt8} {rest : List UInt8}
    (h : bytes s = b :: rest) (hb : b < 128) :
    ∃ after, s = String.singleton (Char.ofNat b.toNat) ++ after ∧ bytes after = rest := by
  rw [bytes_eq_flatMap] at h
  cases hs : s.toList with
  | nil =>
    rw [hs] at h
    cases h
  | cons c cs =>
    rw [hs, List.flatMap_cons] at h
    obtain ⟨d, bs, hc⟩ := List.exists_cons_of_ne_nil (String.utf8EncodeChar_ne_nil (c := c))
    rw [hc, List.cons_append] at h
    obtain ⟨rfl, hrest⟩ := List.cons_eq_cons.1 h
    obtain ⟨rfl, rfl⟩ := eq_of_utf8EncodeChar_eq_cons hc hb
    refine ⟨String.ofList cs, ?_, ?_⟩
    · apply String.toList_injective
      rw [hs, String.toList_append, String.toList_singleton, String.toList_ofList]
      rfl
    · rw [bytes_eq_flatMap, String.toList_ofList]
      exact hrest

/-! ## Places -/

/-- What stands from place `n` on, if that lies between two characters: `after`. -/
def IsAt (s : String) (n : Nat) (after : String) : Prop :=
  ∃ before, s = before ++ after ∧ before.utf8ByteSize = n

theorem IsAt.isValid {s after : String} {n : Nat} (h : IsAt s n after) :
    String.Pos.Raw.IsValid s ⟨n⟩ := by
  obtain ⟨before, rfl, rfl⟩ := h
  exact String.Pos.Raw.isValid_iff_exists_append.2 ⟨before, after, rfl, rfl⟩

theorem IsAt.le {s after : String} {n : Nat} (h : IsAt s n after) : n ≤ s.utf8ByteSize := by
  obtain ⟨before, rfl, rfl⟩ := h
  rw [String.utf8ByteSize_append]
  exact Nat.le_add_right _ _

/-- The character at a place is the first one from there on. -/
theorem IsAt.get?_eq {s after : String} {n : Nat} (h : IsAt s n after) :
    String.Pos.Raw.get? s ⟨n⟩ = after.toList.head? := by
  obtain ⟨before, rfl, rfl⟩ := h
  have hget := String.get?_of_valid before.toList after.toList
  rwa [String.utf8Len_toList, String.ofList_append, String.ofList_toList,
    String.ofList_toList] at hget

end RecipePlanner.Text

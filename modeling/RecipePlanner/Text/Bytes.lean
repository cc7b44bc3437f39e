/-!
# Text as bytes

The UTF-8 bytes of a text as a list, and the text that a list of bytes stands for, if it is one.
The two are inverse to each other (`ofBytes?_eq_some_iff`).
-/

namespace RecipePlanner.Text

/-- The UTF-8 bytes of a text. -/
def bytes (s : String) : List UInt8 := s.toByteArray.data.toList

/-- The text with these UTF-8 bytes. -/
def ofBytes? (bs : List UInt8) : Option String := String.fromUTF8? bs.toByteArray

/-- The bytes of a text are those of its characters. -/
theorem bytes_eq_flatMap (s : String) : bytes s = s.toList.flatMap String.utf8EncodeChar := by
  have hdata : bytes (String.ofList s.toList) = s.toList.flatMap String.utf8EncodeChar := by
    rw [bytes, String.toByteArray_ofList, List.utf8Encode, List.data_toByteArray]
  rwa [String.ofList_toList] at hdata

theorem toByteArray_bytes (s : String) : (bytes s).toByteArray = s.toByteArray := by
  simp [bytes, ByteArray.ext_iff]

/-- Bytes are read as a text exactly if they are the bytes of that text. -/
theorem ofBytes?_eq_some_iff {bs : List UInt8} {s : String} :
    ofBytes? bs = some s ↔ bytes s = bs := by
  rw [ofBytes?, String.fromUTF8?, ← List.toByteArray_inj, toByteArray_bytes]
  constructor
  · intro h
    split at h
    · cases h
      rfl
    · cases h
  · intro h
    rw [dif_pos (h ▸ s.isValidUTF8)]
    congr 1
    exact String.toByteArray_inj.1 h.symm

theorem ofBytes?_bytes (s : String) : ofBytes? (bytes s) = some s := ofBytes?_eq_some_iff.2 rfl

theorem bytes_injective {s t : String} (h : bytes s = bytes t) : s = t := by
  have hs := ofBytes?_bytes s
  rw [h, ofBytes?_bytes] at hs
  exact (Option.some.inj hs).symm

/-- A statement about a byte holds of all bytes if it holds of the numbers below 256. -/
theorem forall_byte {P : UInt8 → Prop} (h : ∀ n < 256, P (UInt8.ofNat n)) (b : UInt8) : P b := by
  have hb := h b.toNat b.toNat_lt
  rwa [UInt8.ofNat_toNat] at hb

end RecipePlanner.Text

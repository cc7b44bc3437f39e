import RecipePlanner.Proofs.Route.Steps

/-!
# Segments of a written route

A segment stands for the bytes of a text: `%` and two hexadecimal digits for one byte, and every
other byte that is no mark for itself (`Escaped`). The reader takes a segment up to the next mark or
the end, and takes nothing else for one (`readSegment_iff_isSegment`). The printer writes plain bytes
as they are and all others as escapes, so what it writes for a text is a segment for that text
(`isSegment_segment`), in plain bytes, `%` and hexadecimal digits, each a character of its own
(`bytes_ofList_ascii`).
-/

namespace RecipePlanner.Route

open Outcome

/-! ## Single bytes -/

/-- A byte that stands for itself neither ends a segment nor starts an escape. -/
theorem not_isMark_of_isPlain : ∀ b : UInt8,
    isPlain b = true → isMark b = false ∧ b ≠ byteOf '%' :=
  Text.forall_byte (by decide +kernel)

/-- The two digits of a byte are read as that byte. -/
theorem hexPair?_hexByte : ∀ b : UInt8,
    hexPair? (hexByte (b / 16)) (hexByte (b % 16)) = some b :=
  Text.forall_byte (by decide +kernel)

/-- The bytes of a written route: those that stand for themselves, the mark of an escape and the
marks between segments. -/
def isWritten (b : UInt8) : Bool := isPlain b || b == byteOf '%' || isMark b

theorem lt_128_of_isWritten : ∀ b : UInt8, isWritten b = true → b < 128 :=
  Text.forall_byte (by decide +kernel)

theorem isWritten_of_mem_escapeByte (b : UInt8) : ∀ c ∈ escapeByte b, isWritten c = true := by
  have hall : ∀ b, (escapeByte b).all isWritten = true := Text.forall_byte (by decide +kernel)
  exact List.all_eq_true.1 (hall b)

/-! ## What stands for a text -/

/-- The byte is the hexadecimal digit for `n`, in either case. -/
def IsHexDigit (b : UInt8) (n : Nat) : Prop :=
  ("0123456789abcdef".toList.map byteOf)[n]? = some b ∨
    ("0123456789ABCDEF".toList.map byteOf)[n]? = some b

instance (b : UInt8) (n : Nat) : Decidable (IsHexDigit b n) :=
  inferInstanceAs (Decidable (_ ∨ _))

/-- The first bytes, none of which is a mark, stand for the second: `%` and two hexadecimal digits
for one byte, and every other byte for itself. -/
inductive Escaped : (written meant : List UInt8) → Prop where
  | nil : Escaped [] []
  | plain {b : UInt8} {w bs : List UInt8} (hmark : isMark b = false) (hescape : b ≠ byteOf '%')
      (h : Escaped w bs) : Escaped (b :: w) (b :: bs)
  | escape {high low : UInt8} {m n : Nat} {w bs : List UInt8} (hhigh : IsHexDigit high m)
      (hlow : IsHexDigit low n) (h : Escaped w bs) :
      Escaped (byteOf '%' :: high :: low :: w) (UInt8.ofNat (16 * m + n) :: bs)

/-- Bytes that stand for those of a text, and at least one. -/
structure IsSegment (w : List UInt8) (text : String) : Prop where
  ne_nil : w ≠ []
  escaped : Escaped w (Text.bytes text)

/-! ## Reading segments -/

/-- Where a segment ends: nothing follows, or a mark. -/
def AtMark (rest : List UInt8) : Prop := ∀ b ∈ rest.head?, isMark b = true

theorem atMark_nil : AtMark [] := nofun

theorem atMark_cons {b : UInt8} {rest : List UInt8} : AtMark (b :: rest) ↔ isMark b = true := by
  simp [AtMark]

theorem unescape_of_atMark (size : Nat) {rest : List UInt8} (h : AtMark rest) :
    unescape size rest = .ok ([], rest) := by
  cases rest with
  | nil => rw [unescape]
  | cons b rest =>
    rw [unescape.eq_def]
    exact if_pos (atMark_cons.1 h)

theorem isHexDigit_of_hexValue? (b : UInt8) : ∀ v ∈ hexValue? b, IsHexDigit b v.toNat := by
  have hall : ∀ b, (hexValue? b).all (fun v => decide (IsHexDigit b v.toNat)) = true :=
    Text.forall_byte (by decide +kernel)
  intro v hv
  exact of_decide_eq_true ((Option.all_eq_true _ _).1 (hall b) v hv)

theorem hexValue?_of_isHexDigit {b : UInt8} {n : Nat} (h : IsHexDigit b n) :
    hexValue? b = some (UInt8.ofNat n) := by
  have hlower : ∀ n < 16, (("0123456789abcdef".toList.map byteOf)[n]?.bind hexValue?) =
      some (UInt8.ofNat n) := by decide +kernel
  have hupper : ∀ n < 16, (("0123456789ABCDEF".toList.map byteOf)[n]?.bind hexValue?) =
      some (UInt8.ofNat n) := by decide +kernel
  rcases h with h | h
  · have hn := hlower n (List.getElem?_eq_some_iff.1 h).1
    rwa [h] at hn
  · have hn := hupper n (List.getElem?_eq_some_iff.1 h).1
    rwa [h] at hn

theorem ofNat_hexPair (m n : Nat) :
    UInt8.ofNat (16 * m + n) = UInt8.ofNat m * 16 + UInt8.ofNat n := by
  rw [UInt8.ofNat_add, UInt8.ofNat_mul, UInt8.mul_comm]
  rfl

/-- Two digits are read as the byte they stand for, and nothing else is. -/
theorem hexPair?_eq_some_iff {high low c : UInt8} :
    hexPair? high low = some c ↔
      ∃ m n, IsHexDigit high m ∧ IsHexDigit low n ∧ UInt8.ofNat (16 * m + n) = c := by
  constructor
  · intro h
    obtain ⟨v, hv, h⟩ := Option.bind_eq_some_iff.1 h
    obtain ⟨u, hu, h⟩ := Option.bind_eq_some_iff.1 h
    cases h
    refine ⟨v.toNat, u.toNat, isHexDigit_of_hexValue? high v hv,
      isHexDigit_of_hexValue? low u hu, ?_⟩
    rw [ofNat_hexPair, UInt8.ofNat_toNat, UInt8.ofNat_toNat]
  · rintro ⟨m, n, hm, hn, rfl⟩
    rw [hexPair?, hexValue?_of_isHexDigit hm, hexValue?_of_isHexDigit hn, ofNat_hexPair]
    rfl

theorem unescape_plain (size : Nat) {b : UInt8} (hmark : isMark b = false)
    (hescape : b ≠ byteOf '%') (s : List UInt8) :
    unescape size (b :: s) = (unescape size s).map fun (cs, left) => (b :: cs, left) := by
  rw [unescape.eq_def]
  simp only [hmark, hescape, Bool.false_eq_true, if_false]

theorem unescape_escape (size : Nat) {high low c : UInt8} (h : hexPair? high low = some c)
    (s : List UInt8) :
    unescape size (byteOf '%' :: high :: low :: s) =
      (unescape size s).map fun (cs, left) => (c :: cs, left) := by
  rw [unescape.eq_def]
  have hmark : isMark (byteOf '%') = false := by decide
  simp only [hmark, h, Bool.false_eq_true, if_false, if_true]

/-- Bytes are unescaped up to the next mark. -/
theorem unescape_eq_ok_iff {size : Nat} {s bs rest : List UInt8} :
    unescape size s = .ok (bs, rest) ↔ ∃ w, s = w ++ rest ∧ Escaped w bs ∧ AtMark rest := by
  constructor
  · intro h
    induction s using unescape.induct generalizing bs with
    | case1 =>
      rw [unescape] at h
      cases h
      exact ⟨[], rfl, .nil, atMark_nil⟩
    | case2 b s hmark =>
      rw [unescape.eq_def] at h
      simp only [hmark, if_true] at h
      cases h
      exact ⟨[], rfl, .nil, atMark_cons.2 hmark⟩
    | case3 high low s c hpair hmark ih =>
      rw [unescape_escape size hpair] at h
      obtain ⟨⟨cs, left⟩, hs, heq⟩ := map_eq_ok_iff.1 h
      cases heq
      obtain ⟨w, rfl, hw, hrest⟩ := ih hs
      obtain ⟨m, n, hm, hn, rfl⟩ := hexPair?_eq_some_iff.1 hpair
      exact ⟨byteOf '%' :: high :: low :: w, rfl, .escape hm hn hw, hrest⟩
    | case4 high low s hpair hmark =>
      rw [unescape.eq_def] at h
      simp [hmark, hpair] at h
    | case5 s hshort hmark =>
      rw [unescape.eq_def] at h
      simp [hmark] at h
    | case6 b s hmark hescape ih =>
      rw [unescape_plain size (Bool.eq_false_iff.2 hmark) hescape] at h
      obtain ⟨⟨cs, left⟩, hs, heq⟩ := map_eq_ok_iff.1 h
      cases heq
      obtain ⟨w, rfl, hw, hrest⟩ := ih hs
      exact ⟨b :: w, rfl, .plain (Bool.eq_false_iff.2 hmark) hescape hw, hrest⟩
  · rintro ⟨w, rfl, hw, hrest⟩
    induction hw with
    | nil => exact unescape_of_atMark size hrest
    | plain hmark hescape _ ih =>
      rw [List.cons_append, unescape_plain size hmark hescape, ih]
      rfl
    | escape hhigh hlow _ ih =>
      rw [List.cons_append, List.cons_append, List.cons_append,
        unescape_escape size (hexPair?_eq_some_iff.2 ⟨_, _, hhigh, hlow, rfl⟩), ih]
      rfl

/-- Only no bytes stand for no bytes. -/
theorem Escaped.eq_nil_iff {w bs : List UInt8} (h : Escaped w bs) : w = [] ↔ bs = [] := by
  cases h with
  | nil => exact Iff.rfl
  | plain => exact iff_of_false (List.cons_ne_nil _ _) (List.cons_ne_nil _ _)
  | escape => exact iff_of_false (List.cons_ne_nil _ _) (List.cons_ne_nil _ _)

theorem isSegment_iff {w : List UInt8} {text : String} :
    IsSegment w text ↔ text ≠ "" ∧ Escaped w (Text.bytes text) := by
  have hempty : Text.bytes text = [] ↔ text = "" :=
    ⟨fun h => Text.bytes_injective h, fun h => h ▸ rfl⟩
  constructor
  · rintro ⟨hw, h⟩
    exact ⟨fun ht => hw (h.eq_nil_iff.2 (hempty.2 ht)), h⟩
  · rintro ⟨ht, h⟩
    exact ⟨fun hw => ht (hempty.1 (h.eq_nil_iff.1 hw)), h⟩

/-- A segment is read up to the next mark. -/
theorem readSegment_iff_isSegment {size : Nat} {s rest : List UInt8} {text : String} :
    readSegment size s = .ok (text, rest) ↔
      ∃ w, s = w ++ rest ∧ IsSegment w text ∧ AtMark rest := by
  simp only [readSegment_eq_ok_iff, unescape_eq_ok_iff, isSegment_iff]
  constructor
  · rintro ⟨ht, w, hs, hw, hrest⟩
    exact ⟨w, hs, ⟨ht, hw⟩, hrest⟩
  · rintro ⟨w, hs, ⟨ht, hw⟩, hrest⟩
    exact ⟨ht, w, hs, hw, hrest⟩

theorem Escaped.eq_cons {w bs : List UInt8} (h : Escaped w bs) (hne : w ≠ []) :
    ∃ b t, w = b :: t ∧ isMark b = false := by
  cases h with
  | nil => exact absurd rfl hne
  | plain hmark _ _ => exact ⟨_, _, rfl, hmark⟩
  | escape _ _ _ => exact ⟨_, _, rfl, by decide⟩

/-- A segment starts with a byte that is no mark. -/
theorem IsSegment.eq_cons {w : List UInt8} {text : String} (h : IsSegment w text) :
    ∃ b t, w = b :: t ∧ isMark b = false :=
  h.escaped.eq_cons h.ne_nil

/-! ## Writing segments -/

/-- A byte is written as what stands for it. -/
theorem Escaped.escapeByte_append {w bs : List UInt8} (h : Escaped w bs) (b : UInt8) :
    Escaped (escapeByte b ++ w) (b :: bs) := by
  rw [escapeByte]
  split
  · next hplain =>
    obtain ⟨hmark, hescape⟩ := not_isMark_of_isPlain b hplain
    exact .plain hmark hescape h
  · obtain ⟨m, n, hhigh, hlow, hb⟩ := hexPair?_eq_some_iff.1 (hexPair?_hexByte b)
    have hescaped := Escaped.escape hhigh hlow h
    rwa [hb] at hescaped

/-- What is written for a text stands for its bytes. -/
theorem escaped_segment (text : String) : Escaped (segment text) (Text.bytes text) := by
  rw [segment]
  induction Text.bytes text with
  | nil => exact .nil
  | cons b bs ih =>
    rw [List.flatMap_cons]
    exact ih.escapeByte_append b

/-- A text that is not empty is written as a segment for it. -/
theorem isSegment_segment {text : String} (h : text ≠ "") : IsSegment (segment text) text :=
  isSegment_iff.2 ⟨h, escaped_segment text⟩

/-! ## ASCII -/

theorem utf8EncodeChar_ofNat_toNat : ∀ b : UInt8, b < 128 →
    String.utf8EncodeChar (Char.ofNat b.toNat) = [b] :=
  Text.forall_byte (by decide +kernel)

/-- Bytes below 128 are the bytes of the text with these codes. -/
theorem bytes_ofList_ascii {bs : List UInt8} (h : ∀ b ∈ bs, b < 128) :
    Text.bytes (String.ofList (bs.map fun b => Char.ofNat b.toNat)) = bs := by
  rw [Text.bytes_eq_flatMap, String.toList_ofList]
  induction bs with
  | nil => rfl
  | cons b bs ih =>
    obtain ⟨hb, hbs⟩ := List.forall_mem_cons.1 h
    rw [List.map_cons, List.flatMap_cons, utf8EncodeChar_ofNat_toNat b hb, ih hbs]
    rfl

theorem isWritten_of_mem_segment {text : String} {b : UInt8} (h : b ∈ segment text) :
    isWritten b = true := by
  obtain ⟨c, -, hb⟩ := List.mem_flatMap.1 h
  exact isWritten_of_mem_escapeByte c b hb

end RecipePlanner.Route

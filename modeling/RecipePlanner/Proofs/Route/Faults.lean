import RecipePlanner.Proofs.Route.Segment
import RecipePlanner.Proofs.Text.Places

/-!
# Where a fault is met

A text that is no route is refused with a fault, and the place that the fault names is one between
two characters of the text, at which the fault can be seen (`located_of_decode`). The reader works
on bytes and may stand inside a character, but only within a segment. A segment ends in front of a
mark and starts behind one, and marks are ASCII: `Stands` and `Starts` say where the reader is by
what is left to read. A step of the reader leaves it at such a place or tells a fault that the text
shows there (`Told`), and so do steps taken one after the other (`Told.bind`).
-/

namespace RecipePlanner.Route

open Text (IsAt)

/-! ## What faults say -/

/-- The place that a fault names. -/
def DecodeFault.position? : DecodeFault → Option Nat
  | empty => none
  | emptySegment n => some n
  | unbalanced n => some n
  | unexpected _ n => some n
  | invalidEscape n => some n
  | tooDeep => none
  | repeatedItem _ => none

/-- The character that begins with byte `n`, if one does. -/
def charAt? (s : String) (n : Nat) : Option Char := String.Pos.Raw.get? s ⟨n⟩

/-- The hexadecimal digits of either case. -/
def hexDigits : List Char := "0123456789abcdefABCDEF".toList

/-- The marks behind which a segment starts. -/
def openers : List Char := ['>', '~', '|', '(']

/-- A `%` stands at the place and no two hexadecimal digits follow it. -/
def OpenEscapeAt (s : String) (n : Nat) : Prop :=
  charAt? s n = some '%' ∧
    ¬ ∃ c ∈ hexDigits, ∃ d ∈ hexDigits, charAt? s (n + 1) = some c ∧ charAt? s (n + 2) = some d

/-- A segment starts at the place, in the beginning or behind a mark, and goes on up to a mark,
but the bytes that it stands for are not those of a text. -/
def UnreadableSegmentAt (s : String) (n : Nat) : Prop :=
  (n = 0 ∨ ∃ c ∈ openers, charAt? s (n - 1) = some c) ∧
  ∃ written rest meant, (Text.bytes s).drop n = written ++ rest ∧ AtMark rest ∧
    Escaped written meant ∧ ∀ text, Text.bytes text ≠ meant

/-- What a fault says can be seen at the place that it names. -/
def Located (s : String) : DecodeFault → Prop
  | .empty => s = ""
  | .emptySegment n =>
    n = s.utf8ByteSize ∨ ∃ c ∈ ['>', '~', '|', '(', ')'], charAt? s n = some c
  | .unbalanced n => charAt? s n = some '(' ∨ charAt? s n = some ')'
  | .unexpected c n => charAt? s n = some c ∧ c ≠ ')'
  | .invalidEscape n => OpenEscapeAt s n ∨ UnreadableSegmentAt s n
  | .tooDeep => True
  | .repeatedItem _ => True

/-! ## Where the reader stands -/

/-- What is left to read is a text with which the whole text ends. -/
def Stands (s : String) (rest : List UInt8) : Prop :=
  ∃ before after, s = before ++ after ∧ Text.bytes after = rest

/-- A segment may start here: nothing was read before, or a mark other than a closing parenthesis.
-/
def Starts (s : String) (rest : List UInt8) : Prop :=
  ∃ before after, s = before ++ after ∧ Text.bytes after = rest ∧
    (before = "" ∨ ∃ front, ∃ c ∈ openers, before = front ++ String.singleton c)

/-- The place of the reader when this is left. -/
def place (s : String) (rest : List UInt8) : Nat := (Text.bytes s).length - rest.length

/-- An opening mark is one byte and is behind it the character that was read. -/
theorem byteOf_of_mem_openers {c : Char} (hc : c ∈ openers) :
    byteOf c < 128 ∧ Char.ofNat (byteOf c).toNat = c ∧ c.utf8Size = 1 := by
  have hall : openers.all (fun c => decide (byteOf c < 128 ∧
      Char.ofNat (byteOf c).toNat = c ∧ c.utf8Size = 1)) = true := by decide +kernel
  exact of_decide_eq_true (List.all_eq_true.1 hall c hc)

theorem lt_128_of_isMark (b : UInt8) (h : isMark b = true) : b < 128 := by
  apply lt_128_of_isWritten
  rw [isWritten, h, Bool.or_true]

theorem mem_marks_of_isMark : ∀ b : UInt8, isMark b = true →
    Char.ofNat b.toNat ∈ ['>', '~', '|', '(', ')'] :=
  Text.forall_byte (by decide +kernel)

theorem AtMark.lt_128 {rest : List UInt8} (h : AtMark rest) : ∀ b ∈ rest.head?, b < 128 :=
  fun b hb => lt_128_of_isMark b (h b hb)

section Places

variable {s : String} {rest : List UInt8}

theorem Starts.stands (h : Starts s rest) : Stands s rest := by
  obtain ⟨before, after, hs, hrest, -⟩ := h
  exact ⟨before, after, hs, hrest⟩

theorem starts_bytes (s : String) : Starts s (Text.bytes s) :=
  ⟨"", s, String.empty_append.symm, rfl, Or.inl rfl⟩

theorem place_append (before after : String) :
    place (before ++ after) (Text.bytes after) = before.utf8ByteSize := by
  rw [place, Text.bytes_append, List.length_append, Nat.add_sub_cancel, Text.length_bytes]

theorem Stands.isAt (h : Stands s rest) :
    ∃ after, IsAt s (place s rest) after ∧ Text.bytes after = rest := by
  obtain ⟨before, after, rfl, rfl⟩ := h
  exact ⟨after, ⟨before, rfl, (place_append before after).symm⟩, rfl⟩

/-- Up to an ASCII byte or the end whole characters are read. -/
theorem Stands.of_append {front : List UInt8} (h : Stands s (front ++ rest))
    (hrest : ∀ b ∈ rest.head?, b < 128) : Stands s rest := by
  obtain ⟨before, after, rfl, hafter⟩ := h
  obtain ⟨front', rest', rfl, -, hrest'⟩ := Text.exists_append_of_bytes_eq hafter hrest
  exact ⟨before ++ front', rest', (String.append_assoc ..).symm, hrest'⟩

/-- Behind an ASCII byte the reader stands behind a character. -/
theorem Stands.exists_of_cons {b : UInt8} (h : Stands s (b :: rest)) (hb : b < 128) :
    ∃ before after, s = before ++ (String.singleton (Char.ofNat b.toNat) ++ after) ∧
      Text.bytes after = rest := by
  obtain ⟨before, after, rfl, hafter⟩ := h
  obtain ⟨after', rfl, hrest⟩ := Text.eq_append_of_bytes_eq_cons hafter hb
  exact ⟨before, after', rfl, hrest⟩

theorem Stands.of_cons {b : UInt8} (h : Stands s (b :: rest)) (hb : b < 128) : Stands s rest := by
  obtain ⟨before, after, rfl, hrest⟩ := h.exists_of_cons hb
  exact ⟨_, after, (String.append_assoc ..).symm, hrest⟩

/-- Behind an opening mark a segment may start. -/
theorem Stands.starts_of_eat? {c : Char} {w : List UInt8} (h : Stands s w)
    (hc : c ∈ openers) (he : eat? (byteOf c) w = some rest) : Starts s rest := by
  rw [eat?_eq_some_iff.1 he] at h
  obtain ⟨hlt, hchar, -⟩ := byteOf_of_mem_openers hc
  obtain ⟨before, after, rfl, hrest⟩ := h.exists_of_cons hlt
  rw [hchar]
  exact ⟨_, after, (String.append_assoc ..).symm, hrest, Or.inr ⟨before, c, hc, rfl⟩⟩

/-- The character at the place is the first one of what is left. -/
theorem Stands.charAt?_eq (h : Stands s rest) :
    ∃ after, Text.bytes after = rest ∧ charAt? s (place s rest) = after.toList.head? := by
  obtain ⟨after, hat, hrest⟩ := h.isAt
  exact ⟨after, hrest, hat.get?_eq⟩

/-- An ASCII byte that is next is the character at the place. -/
theorem Stands.charAt?_of_cons {b : UInt8} (h : Stands s (b :: rest)) (hb : b < 128) :
    charAt? s (place s (b :: rest)) = some (Char.ofNat b.toNat) := by
  obtain ⟨after, hafter, hchar⟩ := h.charAt?_eq
  obtain ⟨after', rfl, -⟩ := Text.eq_append_of_bytes_eq_cons hafter hb
  rw [hchar, String.toList_append, String.toList_singleton]
  rfl

/-- A character at the place that has one byte is read with that byte. -/
theorem Stands.eq_cons_of_charAt? {c : Char} (h : Stands s rest)
    (hc : charAt? s (place s rest) = some c) (hbyte : String.utf8EncodeChar c = [byteOf c]) :
    ∃ left, rest = byteOf c :: left := by
  obtain ⟨after, rfl, hchar⟩ := h.charAt?_eq
  rw [hchar, List.head?_eq_some_iff] at hc
  obtain ⟨cs, hcs⟩ := hc
  rw [Text.bytes_eq_flatMap, hcs, List.flatMap_cons, hbyte]
  exact ⟨_, rfl⟩

theorem Stands.place_eq_succ {b : UInt8} (h : Stands s (b :: rest)) :
    place s rest = place s (b :: rest) + 1 := by
  obtain ⟨before, after, rfl, hafter⟩ := h
  have hlength := congrArg List.length (Text.bytes_append before after)
  rw [hafter, List.length_append, List.length_cons] at hlength
  rw [place, place, List.length_cons]
  omega

/-- A segment may start in the beginning of the text or behind an opening mark. -/
theorem Starts.eq_zero_or_charAt? (h : Starts s rest) :
    place s rest = 0 ∨ ∃ c ∈ openers, charAt? s (place s rest - 1) = some c := by
  obtain ⟨before, after, rfl, rfl, rfl | ⟨front, c, hc, rfl⟩⟩ := h
  · left
    rw [place_append, String.utf8ByteSize_empty]
  · right
    refine ⟨c, hc, ?_⟩
    obtain ⟨-, -, hsize⟩ := byteOf_of_mem_openers hc
    rw [place_append, String.utf8ByteSize_append, String.utf8ByteSize_singleton, hsize,
      Nat.add_sub_cancel, String.append_assoc]
    have hat : IsAt (front ++ (String.singleton c ++ after)) front.utf8ByteSize
        (String.singleton c ++ after) := ⟨front, rfl, rfl⟩
    rw [charAt?, hat.get?_eq, String.toList_append, String.toList_singleton]
    rfl

end Places

/-! ## Faults of single steps -/

/-- The text shows the fault, and the place that the fault names is one between two characters. -/
structure Shown (s : String) (fault : DecodeFault) : Prop where
  isAt : ∀ n ∈ fault.position?, ∃ after, IsAt s n after
  located : Located s fault

/-- A fault that names the place of the reader. -/
theorem Stands.shown {s : String} {rest : List UInt8} {fault : DecodeFault} (h : Stands s rest)
    (hplace : fault.position? = some (place s rest)) (hlocated : Located s fault) :
    Shown s fault := by
  refine ⟨fun n hn => ?_, hlocated⟩
  rw [hplace, Option.mem_some_iff] at hn
  obtain ⟨after, hat, -⟩ := h.isAt
  exact ⟨after, hn ▸ hat⟩

/-- A fault that names no place. -/
theorem Located.shown {s : String} {fault : DecodeFault} (h : Located s fault)
    (hplace : fault.position? = none) : Shown s fault := by
  refine ⟨fun n hn => ?_, h⟩
  rw [hplace] at hn
  cases hn

theorem byteOf_of_mem_hexDigits {c : Char} (hc : c ∈ hexDigits) :
    String.utf8EncodeChar c = [byteOf c] ∧ byteOf c < 128 ∧ (hexValue? (byteOf c)).isSome := by
  have hall : hexDigits.all (fun c => decide (String.utf8EncodeChar c = [byteOf c] ∧
      byteOf c < 128 ∧ (hexValue? (byteOf c)).isSome)) = true := by decide +kernel
  exact of_decide_eq_true (List.all_eq_true.1 hall c hc)

/-- At a `%` without two digits the text shows an open escape. -/
theorem Stands.openEscapeAt {s : String} {rest : List UInt8} (h : Stands s (byteOf '%' :: rest))
    (hopen : ∀ high low left, rest = high :: low :: left → hexPair? high low = none) :
    OpenEscapeAt s (place s (byteOf '%' :: rest)) := by
  refine ⟨h.charAt?_of_cons (by decide), ?_⟩
  rintro ⟨c, hc, d, hd, hfirst, hsecond⟩
  obtain ⟨hcBytes, hcLt, hcDigit⟩ := byteOf_of_mem_hexDigits hc
  obtain ⟨hdBytes, -, hdDigit⟩ := byteOf_of_mem_hexDigits hd
  have hrest : Stands s rest := h.of_cons (by decide)
  have hplace := h.place_eq_succ
  rw [← hplace] at hfirst
  obtain ⟨left, rfl⟩ := hrest.eq_cons_of_charAt? hfirst hcBytes
  have hnext : place s (byteOf '%' :: byteOf c :: left) + 2 = place s left := by
    rw [hrest.place_eq_succ, hplace]
  rw [hnext] at hsecond
  obtain ⟨left', rfl⟩ := (hrest.of_cons hcLt).eq_cons_of_charAt? hsecond hdBytes
  -- Both bytes are digits, so they are a pair.
  obtain ⟨high, hhigh⟩ := Option.isSome_iff_exists.1 hcDigit
  obtain ⟨low, hlow⟩ := Option.isSome_iff_exists.1 hdDigit
  have hpair := hopen _ _ _ rfl
  rw [hexPair?, hhigh, hlow] at hpair
  cases hpair

/-- Where a segment may start and a mark or the end comes at once, the text shows no segment. -/
theorem Stands.shown_emptySegment {s : String} {rest : List UInt8} (h : Stands s rest)
    (hmark : AtMark rest) : Shown s (.emptySegment (place s rest)) := by
  apply h.shown rfl
  cases rest with
  | nil => exact Or.inl (Text.length_bytes s)
  | cons b rest =>
    have hb := atMark_cons.1 hmark
    exact Or.inr ⟨_, mem_marks_of_isMark b hb, h.charAt?_of_cons (lt_128_of_isMark b hb)⟩

/-- A segment whose bytes are no text is shown where it starts. -/
theorem Starts.unreadableSegmentAt {s : String} {w rest bs : List UInt8}
    (h : Starts s (w ++ rest)) (hw : Escaped w bs) (hmark : AtMark rest)
    (hbs : Text.ofBytes? bs = none) : UnreadableSegmentAt s (place s (w ++ rest)) := by
  refine ⟨h.eq_zero_or_charAt?, w, rest, bs, ?_, hmark, hw, fun text htext => ?_⟩
  · obtain ⟨before, after, rfl, hafter⟩ := h.stands
    rw [← hafter, place_append, Text.bytes_append, ← Text.length_bytes, List.drop_left]
  · rw [Text.ofBytes?_eq_some_iff.2 htext] at hbs
    cases hbs

/-! ## Steps of the reader -/

/-- A step leaves the reader at a place between two characters or tells a fault that the text
shows. -/
def Told (s : String) {α : Type} : Except DecodeFault (α × List UInt8) → Prop
  | .ok (_, rest) => Stands s rest
  | .error fault => Shown s fault

section Steps

variable {s : String} {α β : Type}

/-- One step after the other. -/
theorem Told.bind {x : Except DecodeFault (α × List UInt8)}
    {f : α × List UInt8 → Except DecodeFault (β × List UInt8)} (hx : Told s x)
    (hf : ∀ a rest, x = .ok (a, rest) → Stands s rest → Told s (f (a, rest))) :
    Told s (x >>= f) := by
  cases x with
  | error fault => exact hx
  | ok result =>
    obtain ⟨a, rest⟩ := result
    exact hf a rest rfl hx

/-- What a step makes of what it has read does not matter. -/
theorem Told.map {x : Except DecodeFault (α × List UInt8)} {f : α × List UInt8 → β × List UInt8}
    (hx : Told s x) (hf : ∀ result, (f result).2 = result.2) : Told s (x.map f) := by
  cases x with
  | error fault => exact hx
  | ok result =>
    obtain ⟨a, rest⟩ := result
    have hstands : Stands s (f (a, rest)).2 := by
      rw [hf]
      exact hx
    exact hstands

/-- A `%` is told as an invalid escape if no two digits follow it. -/
theorem unescape_open (size : Nat) {rest : List UInt8}
    (hopen : ∀ high low left, rest = high :: low :: left → hexPair? high low = none) :
    unescape size (byteOf '%' :: rest) =
      .error (.invalidEscape (size - (byteOf '%' :: rest).length)) := by
  have hmark : isMark (byteOf '%') = false := by decide
  rw [unescape.eq_def]
  simp only [hmark, Bool.false_eq_true, if_false, if_true]
  split
  · next high low left =>
    rw [hopen high low left rfl]
  · rfl

theorem Stands.told_open {front rest : List UInt8} (h : Stands s (front ++ byteOf '%' :: rest))
    (hopen : ∀ high low left, rest = high :: low :: left → hexPair? high low = none) :
    Told s (unescape (Text.bytes s).length (byteOf '%' :: rest)) := by
  have hstands : Stands s (byteOf '%' :: rest) := by
    apply h.of_append
    rintro _ ⟨⟩
    decide
  rw [unescape_open _ hopen]
  exact hstands.shown rfl (Or.inl (hstands.openEscapeAt hopen))

/-- Inside a segment the reader may stand inside a character, but not at an escape or at the end. -/
theorem told_unescape {front w : List UInt8} (h : Stands s (front ++ w)) :
    Told s (unescape (Text.bytes s).length w) := by
  -- The bytes of the segment that were read go to `front`, behind which no character need end.
  induction w using unescape.induct generalizing front with
  | case1 =>
    rw [unescape]
    exact h.of_append atMark_nil.lt_128
  | case2 b w hmark =>
    rw [unescape_of_atMark _ (atMark_cons.2 hmark)]
    exact h.of_append (atMark_cons.2 hmark).lt_128
  | case3 high low w c hpair hmark ih =>
    rw [unescape_escape _ hpair]
    have hfront : Stands s (front ++ [byteOf '%', high, low] ++ w) := by
      rwa [List.append_assoc]
    exact (ih hfront).map fun _ => rfl
  | case4 high low w hpair hmark =>
    apply h.told_open
    rintro _ _ _ ⟨⟩
    exact hpair
  | case5 w hshort hmark =>
    apply h.told_open
    intro high low left hw
    exact absurd hw (hshort high low left)
  | case6 b w hmark hescape ih =>
    rw [unescape_plain _ (Bool.eq_false_iff.2 hmark) hescape]
    have hfront : Stands s (front ++ [b] ++ w) := by
      rwa [List.append_assoc]
    exact (ih hfront).map fun _ => rfl

theorem told_readSegment {w : List UInt8} (h : Starts s w) :
    Told s (readSegment (Text.bytes s).length w) := by
  rw [readSegment]
  have hsegment : Stands s ([] ++ w) := h.stands
  refine (told_unescape hsegment).bind fun bs rest hread hrest => ?_
  obtain ⟨w, rfl, hw, hmark⟩ := unescape_eq_ok_iff.1 hread
  simp only
  split
  · next hbs =>
    obtain rfl := hw.eq_nil_iff.2 hbs
    exact hrest.shown_emptySegment hmark
  · split
    · exact hrest
    · next hbs =>
      exact h.stands.shown rfl (Or.inr (h.unreadableSegmentAt hw hmark hbs))

theorem told_readChoice {w : List UInt8} (h : Stands s w) :
    Told s (readChoice (Text.bytes s).length w) := by
  rw [readChoice]
  split
  · next rest he =>
    have hrest : Starts s rest := h.starts_of_eat? (by decide) he
    exact (told_readSegment hrest).map fun _ => rfl
  · exact h

section Parts

variable {part : List UInt8 → Except DecodeFault (Route × List UInt8)}
  (hpart : ∀ w, Starts s w → Told s (part w))

include hpart

/-- Parts are read one after the other, each behind a mark. -/
theorem told_readParts (bound : Nat) {w : List UInt8} (h : Starts s w) :
    Told s (readParts part bound w) := by
  induction bound generalizing w with
  | zero => exact (hpart w h).map fun _ => rfl
  | succ bound ih =>
    rw [readParts]
    refine (hpart w h).bind fun p rest _ hrest => ?_
    simp only
    split
    · next inner he =>
      have hinner : Starts s inner := hrest.starts_of_eat? (by decide) he
      exact (ih hinner).map fun _ => rfl
    · exact hrest

/-- A parenthesis without its partner is shown, wherever the parts behind it end. -/
theorem told_readGroup {w : List UInt8} (h : Starts s w) :
    Told s (readGroup (Text.bytes s).length part w) := by
  rw [readGroup]
  split
  · exact told_readParts hpart _ h
  · next inner he =>
    have hinner : Starts s inner := h.stands.starts_of_eat? (by decide) he
    refine (told_readParts hpart _ hinner).bind fun ps rest _ hrest => ?_
    simp only
    split
    · next left hclose =>
      rw [eat?_eq_some_iff.1 hclose] at hrest
      exact hrest.of_cons (by decide)
    · obtain rfl := eat?_eq_some_iff.1 he
      exact h.stands.shown rfl (Or.inl (h.stands.charAt?_of_cons (by decide)))

end Parts

theorem told_readNode (levels : Nat) (lineage : List String) {w : List UInt8} (h : Starts s w) :
    Told s (readNode (Text.bytes s).length levels lineage w) := by
  -- Each part is read with one level less, whatever lineage stands above it.
  induction levels generalizing lineage w with
  | zero =>
    have hdeep : Located s .tooDeep := trivial
    exact hdeep.shown rfl
  | succ levels ih =>
    rw [readNode]
    refine (told_readSegment h).bind fun item rest _ hrest => ?_
    simp only
    split
    · have hrepeated : Located s (.repeatedItem item) := trivial
      exact hrepeated.shown rfl
    · refine (told_readChoice hrest).bind fun choice left _ hleft => ?_
      simp only
      split
      · exact hleft
      · next inner he =>
        have hinner : Starts s inner := hleft.starts_of_eat? (by decide) he
        exact (told_readGroup (fun w hw => ih (item :: lineage) hw) hinner).map fun _ => rfl

end Steps

/-! ## Faults of texts -/

/-- What is left behind a node starts with the character that is told. -/
theorem Stands.shown_unexpected {s : String} {b : UInt8} {rest : List UInt8}
    (h : Stands s (b :: rest)) (hb : b ≠ byteOf ')') :
    Shown s (.unexpected (firstChar (b :: rest)) (place s (b :: rest))) := by
  apply h.shown rfl
  obtain ⟨after, hafter, hchar⟩ := h.charAt?_eq
  have hbytes : after.toList.flatMap String.utf8EncodeChar = b :: rest := by
    rw [← Text.bytes_eq_flatMap, hafter]
  cases hcs : after.toList with
  | nil =>
    rw [hcs] at hbytes
    cases hbytes
  | cons c cs =>
    have hfirst : firstChar (b :: rest) = c := by
      rw [firstChar, ← hafter, Text.ofBytes?_bytes, Option.bind_some, hcs]
      rfl
    rw [hcs] at hbytes hchar
    rw [hfirst]
    refine ⟨hchar, ?_⟩
    rintro rfl
    exact hb (List.cons_eq_cons.1 hbytes).1.symm

theorem shown_of_decode {s : String} {fault : DecodeFault} (h : decode s = .error fault) :
    Shown s fault := by
  rw [decode, decodeBytes] at h
  split at h
  · next hs =>
    cases h
    have hempty : Located s .empty := Text.bytes_injective hs
    exact hempty.shown rfl
  · have htold := told_readNode maxDepth [] (starts_bytes s)
    cases hread : readNode (Text.bytes s).length maxDepth [] (Text.bytes s) with
    | error fault' =>
      rw [hread] at h htold
      cases h
      exact htold
    | ok result =>
      obtain ⟨r, rest⟩ := result
      rw [hread] at h htold
      cases rest with
      | nil => cases h
      | cons b rest =>
        have hrest : Stands s (b :: rest) := htold
        change (if b = byteOf ')' then _ else _) = Except.error fault at h
        split at h
        · next hb =>
          subst hb
          cases h
          exact hrest.shown rfl (Or.inr (hrest.charAt?_of_cons (by decide)))
        · next hb =>
          cases h
          exact hrest.shown_unexpected hb

/-- A text that is no route is refused with a fault that the text shows. It is told to be empty
exactly if it is. Every place that is told lies between two characters or at the end of the text,
and what is told of the place can be seen there: the mark or the end in front of which a segment is
missing, the parenthesis without its partner, the character that is not expected, and the escape
without two digits or the segment whose bytes are no text. -/
theorem located_of_decode (s : String) :
    (decode s = .error .empty ↔ s = "") ∧
    ∀ fault, decode s = .error fault →
      (∀ n ∈ fault.position?, n ≤ s.utf8ByteSize ∧ String.Pos.Raw.IsValid s ⟨n⟩) ∧
      Located s fault := by
  refine ⟨⟨fun h => (shown_of_decode h).located, ?_⟩, fun fault h => ?_⟩
  · rintro rfl
    rfl
  · have hshown := shown_of_decode h
    refine ⟨fun n hn => ?_, hshown.located⟩
    obtain ⟨after, hat⟩ := hshown.isAt n hn
    exact ⟨hat.le, hat.isValid⟩

/-- Behind a group of non-ASCII text another character is told, at the byte that it starts with. -/
theorem located_of_decode_behind_group :
    decode "é~(ß)ö" = .error (.unexpected 'ö' 7) ∧ String.Pos.Raw.IsValid "é~(ß)ö" ⟨7⟩ ∧
      charAt? "é~(ß)ö" 7 = some 'ö' := by
  have hfault : decode "é~(ß)ö" = .error (.unexpected 'ö' 7) := by decide +kernel
  obtain ⟨hplace, hchar, -⟩ := (located_of_decode "é~(ß)ö").2 _ hfault
  exact ⟨hfault, (hplace 7 rfl).2, hchar⟩

end RecipePlanner.Route

import Mathlib.Data.List.Basic
import RecipePlanner.BranchKey
import RecipePlanner.Proofs.Route.Segment

/-!
# Keys tell alternatives apart

What stands between the dots of a key is plain: small letters, digits and underscores. So a key is
cut at its dots into the parts it was put together from (`pieces`): the word for a method, the name
of a document if other recipes have the method too, and a number from the second repeat on. The
first piece gives the method back, and the method decides whether a name follows. Hence a number
never passes for a name, nor a name for a number, and two keys agree only if they are the same
repeat of the same thing (`eq_of_nth_eq`, `eq_of_nth_base_eq`). As repeats are counted, no key is
assigned twice (`nodup_assign`).
-/

namespace RecipePlanner.BranchKey

/-! ## Plain texts -/

/-- A small letter, a digit or an underscore. -/
def isPlainChar (c : Char) : Bool := c.isLower || c.isDigit || c == '_'

/-- All characters are small letters, digits and underscores. -/
def IsPlain (s : String) : Prop := ∀ c ∈ s.toList, isPlainChar c = true

/-- Letters and digits have codes below 128. -/
theorem toNat_lt_of_isAlphanum {c : Char} (h : c.isAlphanum = true) : c.toNat < 128 := by
  have hbelow (high : Char) (hhigh : high.toNat < 128) (hc : c.val ≤ high.val) : c.toNat < 128 :=
    Nat.lt_of_le_of_lt (UInt32.le_iff_toNat_le.1 hc) hhigh
  rcases Bool.or_eq_true_iff.1 h with hletter | hdigit
  · rcases Bool.or_eq_true_iff.1 hletter with hupper | hlower
    · exact hbelow 'Z' (by decide) (of_decide_eq_true hupper).2
    · exact hbelow 'z' (by decide) (of_decide_eq_true (Bool.and_eq_true_iff.1 hlower).2)
  · exact hbelow '9' (by decide) (of_decide_eq_true (Bool.and_eq_true_iff.1 hdigit).2)

theorem isPlain_key (m : Method) : IsPlain m.key := by
  have hall : m.key.toList.all isPlainChar = true := by cases m <;> decide
  exact List.all_eq_true.1 hall

/-- What is put for a character in a name is plain, whatever the character is. -/
theorem isPlainChar_plainChar (c : Char) : isPlainChar (plainChar c) = true := by
  have hascii : ∀ n < 128, isPlainChar (plainChar (Char.ofNat n)) = true := by decide +kernel
  by_cases hc : c.toNat < 128
  · have hplain := hascii c.toNat hc
    rwa [Char.ofNat_toNat] at hplain
  · -- All letters and digits that stand in a key have codes below 128.
    have hother : ¬ (c.isAlphanum ∨ c = '_') := by
      rintro (halnum | rfl)
      · exact hc (toNat_lt_of_isAlphanum halnum)
      · exact hc (by decide)
    rw [plainChar, if_neg hother]
    decide

theorem isPlain_plainStem (stem : String) : IsPlain (plainStem stem) := by
  intro c hc
  rw [plainStem, String.toList_ofList] at hc
  obtain ⟨d, -, rfl⟩ := List.mem_map.1 hc
  exact isPlainChar_plainChar d

theorem isPlain_toString (n : Nat) : IsPlain (toString n) := by
  intro c hc
  rw [Nat.toString_eq_repr, Nat.toList_repr] at hc
  simp [isPlainChar, Nat.isDigit_of_mem_toDigits (by decide) (by decide) hc]

/-! ## Pieces of a key -/

/-- The parts of a key between its dots. -/
def pieces (key : String) : List (List Char) := Text.splitOn (· = '.') key.toList

theorem pieces_append_dot (before behind : String) :
    pieces (before ++ "." ++ behind) = pieces before ++ pieces behind := by
  have hlist : (before ++ "." ++ behind).toList = before.toList ++ '.' :: behind.toList := by
    simp
  rw [pieces, hlist]
  exact Text.splitOn_append_sep (by decide) before.toList behind.toList

/-- A plain text is one piece. -/
theorem pieces_of_isPlain {s : String} (h : IsPlain s) : pieces s = [s.toList] := by
  apply Text.splitOn_eq_single
  intro c hc
  have hdot : c ≠ '.' := by
    rintro rfl
    exact absurd (h '.' hc) (by decide)
  exact decide_eq_false hdot

/-- Before repeats are numbered a key is the word for a method, and behind it the name of the
document if the method does not tell the recipe from the others. -/
theorem pieces_base (rs : List Recipe) (r : Recipe) :
    pieces (base rs r) = r.method.key.toList ::
      if rs.countP (·.method = r.method) = 1 then [] else [(plainStem r.fileStem).toList] := by
  rw [base]
  split
  · exact pieces_of_isPlain (isPlain_key r.method)
  · rw [pieces_append_dot, pieces_of_isPlain (isPlain_key r.method),
      pieces_of_isPlain (isPlain_plainStem r.fileStem)]
    rfl

/-! ## Repeats -/

/-- The `n`th of the keys that would be the same: the first stays as it is, the others end in their
number. -/
def nth (b : String) (n : Nat) : String := if n = 1 then b else b ++ "." ++ toString n

/-- The pieces that the number adds to a key: the first has no number. -/
def numberPieces (n : Nat) : List (List Char) := if n = 1 then [] else [(toString n).toList]

theorem pieces_nth (b : String) (n : Nat) : pieces (nth b n) = pieces b ++ numberPieces n := by
  rw [nth, numberPieces]
  split
  · exact (List.append_nil _).symm
  · rw [pieces_append_dot, pieces_of_isPlain (isPlain_toString n)]

theorem numberPieces_injective {n n' : Nat} (h : numberPieces n = numberPieces n') : n = n' := by
  -- The digits of a number are read back as that number.
  have hread : ∀ k : Nat, Nat.ofDigitChars 10 (toString k).toList 0 = k := by
    intro k
    rw [Nat.toString_eq_repr, Nat.toList_repr, Nat.ofDigitChars_ten_toDigits]
  rw [numberPieces, numberPieces] at h
  split at h
  · split at h
    · omega
    · cases h
  · split at h
    · cases h
    · rw [← hread n, (List.cons.inj h).1, hread n']

/-- Keys with equally many pieces before the number agree only if they are the same repeat. -/
theorem eq_of_nth_eq {b b' : String} {n n' : Nat}
    (hlength : (pieces b).length = (pieces b').length) (h : nth b n = nth b' n') :
    b = b' ∧ n = n' := by
  have hpieces := congrArg pieces h
  rw [pieces_nth, pieces_nth] at hpieces
  obtain rfl := numberPieces_injective (List.append_inj hpieces hlength).2
  refine ⟨?_, rfl⟩
  rw [nth, nth] at h
  split at h
  · exact h
  · exact (String.append_left_inj ".").1 ((String.append_left_inj (toString n)).1 h)

/-- The recipes whose keys agree have the same method: it is the first piece. -/
theorem method_eq_of_nth_base_eq {rs : List Recipe} {r r' : Recipe} {n n' : Nat}
    (h : nth (base rs r) n = nth (base rs r') n') : r.method = r'.method := by
  have hpieces := congrArg pieces h
  rw [pieces_nth, pieces_nth, pieces_base, pieces_base] at hpieces
  have hkey := String.toList_inj.1 (List.cons.inj hpieces).1
  apply Option.some.inj
  rw [← Method.ofKey?_key, hkey, Method.ofKey?_key]

theorem eq_of_nth_base_eq {rs : List Recipe} {r r' : Recipe} {n n' : Nat}
    (h : nth (base rs r) n = nth (base rs r') n') : base rs r = base rs r' ∧ n = n' := by
  have hlength : (pieces (base rs r)).length = (pieces (base rs r')).length := by
    -- The method is the same, and it decides whether the name of the document follows.
    rw [pieces_base, pieces_base, method_eq_of_nth_base_eq h]
    simp only [List.length_cons, apply_ite List.length]
  exact eq_of_nth_eq hlength h

/-! ## Assigned keys -/

/-- A numbered key is a repeat beyond those counted before it. -/
theorem exists_nth_of_mem_numbered {earlier bs : List String} {k : String}
    (h : k ∈ numbered earlier bs) : ∃ b ∈ bs, ∃ n, earlier.count b < n ∧ k = nth b n := by
  induction bs generalizing earlier with
  | nil => cases h
  | cons b bs ih =>
    rcases List.mem_cons.1 h with rfl | h
    · exact ⟨b, List.mem_cons_self, earlier.count b + 1, Nat.lt_succ_self _, rfl⟩
    · obtain ⟨b', hb', n, hn, rfl⟩ := ih h
      have hcount := List.count_le_count_cons (a := b') (b := b) (l := earlier)
      exact ⟨b', List.mem_cons_of_mem b hb', n, Nat.lt_of_le_of_lt hcount hn, rfl⟩

/-- Where only the same repeats agree, no numbered key stands twice: those behind a key are later
repeats of it or repeats of something else. -/
theorem nodup_numbered {bs : List String}
    (hinj : ∀ b ∈ bs, ∀ b' ∈ bs, ∀ n n', nth b n = nth b' n' → b = b' ∧ n = n')
    (earlier : List String) : (numbered earlier bs).Nodup := by
  induction bs generalizing earlier with
  | nil => exact List.nodup_nil
  | cons b bs ih =>
    refine List.nodup_cons.2 ⟨?_, ih ?_ (b :: earlier)⟩
    · intro hmem
      obtain ⟨b', hb', n, hn, heq⟩ := exists_nth_of_mem_numbered hmem
      -- The key at hand is the repeat that follows those before it, and now it counts as one.
      obtain ⟨rfl, rfl⟩ := hinj b List.mem_cons_self b' (List.mem_cons_of_mem b hb') _ n heq
      rw [List.count_cons_self] at hn
      exact Nat.lt_irrefl _ hn
    · intro c hc c' hc'
      exact hinj c (List.mem_cons_of_mem b hc) c' (List.mem_cons_of_mem b hc')

/-- No two recipes of a list are assigned the same key. -/
theorem nodup_assign (rs : List Recipe) : (assign rs).Nodup := by
  apply nodup_numbered
  intro b hb b' hb' n n' h
  obtain ⟨r, -, rfl⟩ := List.mem_map.1 hb
  obtain ⟨r', -, rfl⟩ := List.mem_map.1 hb'
  exact eq_of_nth_base_eq h

-- Two documents of one name and a method that no other recipe has.
example : assign [⟨.shapeless, "dye/red-dye.json", [], []⟩, ⟨.smelting, "dye.json", [], []⟩,
    ⟨.shapeless, "red_dye.json", [], []⟩] =
    ["crafting_shapeless.red_dye", "smelting", "crafting_shapeless.red_dye.2"] := by
  decide +kernel

/-- The assigned keys are numbered repeats. -/
theorem exists_nth_of_mem_assign {rs : List Recipe} {k : String} (h : k ∈ assign rs) :
    ∃ r ∈ rs, ∃ n, k = nth (base rs r) n := by
  obtain ⟨b, hb, n, -, rfl⟩ := exists_nth_of_mem_numbered h
  obtain ⟨r, hr, rfl⟩ := List.mem_map.1 hb
  exact ⟨r, hr, n, rfl⟩

/-! ## Writing keys -/

/-- A small letter, a digit, an underscore or a dot. -/
def isKeyChar (c : Char) : Bool := isPlainChar c || c == '.'

/-- All characters are small letters, digits, underscores and dots. -/
def IsKey (s : String) : Prop := ∀ c ∈ s.toList, isKeyChar c = true

theorem IsPlain.isKey {s : String} (h : IsPlain s) : IsKey s := by
  intro c hc
  rw [isKeyChar, h c hc, Bool.true_or]

theorem IsKey.append_dot {s t : String} (hs : IsKey s) (ht : IsKey t) : IsKey (s ++ "." ++ t) := by
  intro c hc
  simp only [String.toList_append, List.mem_append] at hc
  rcases hc with (hc | hc) | hc
  · exact hs c hc
  · rw [List.mem_singleton.1 hc]
    decide
  · exact ht c hc

theorem isKey_of_mem_assign {rs : List Recipe} {k : String} (h : k ∈ assign rs) : IsKey k := by
  obtain ⟨r, -, n, rfl⟩ := exists_nth_of_mem_assign h
  have hmethod := (isPlain_key r.method).isKey
  have hbase : IsKey (base rs r) := by
    rw [base]
    split
    · exact hmethod
    · exact hmethod.append_dot (isPlain_plainStem r.fileStem).isKey
  rw [nth]
  split
  · exact hbase
  · exact hbase.append_dot (isPlain_toString n).isKey

/-- The bytes of a character that may stand in a key are written as they are. -/
theorem flatMap_escapeByte_of_isKeyChar {c : Char} (h : isKeyChar c = true) :
    (String.utf8EncodeChar c).flatMap Route.escapeByte = String.utf8EncodeChar c := by
  have hascii : ∀ n < 128, isKeyChar (Char.ofNat n) = true →
      (String.utf8EncodeChar (Char.ofNat n)).flatMap Route.escapeByte =
        String.utf8EncodeChar (Char.ofNat n) := by decide +kernel
  have hc : c.toNat < 128 := by
    simp only [isKeyChar, isPlainChar, Bool.or_eq_true, beq_iff_eq] at h
    rcases h with ((hlower | hdigit) | rfl) | rfl
    · have hletter : c.isAlpha = true := Bool.or_eq_true_iff.2 (Or.inr hlower)
      exact toNat_lt_of_isAlphanum (Bool.or_eq_true_iff.2 (Or.inl hletter))
    · exact toNat_lt_of_isAlphanum (Bool.or_eq_true_iff.2 (Or.inr hdigit))
    · decide
    · decide
  have hwritten := hascii c.toNat hc
  rw [Char.ofNat_toNat] at hwritten
  exact hwritten h

/-- A key is written without escapes. -/
theorem segment_of_isKey {k : String} (h : IsKey k) : Route.segment k = Text.bytes k := by
  rw [Route.segment, Text.bytes_eq_flatMap, List.flatMap_assoc]
  exact List.flatMap_congr fun c hc => flatMap_escapeByte_of_isKeyChar (h c hc)

end RecipePlanner.BranchKey

/-!
# Blank characters and trimming

The characters with the Unicode property White_Space, and the removal of blanks from the two ends
of a text. What trimming leaves starts with no blank (`head?_trimStart`), a text that starts with
none keeps its start (`trimStart_eq_self`), and trimming twice is trimming once (`trim_trim`). Trimming
gives a text without blanks at its ends (`isTrimmed_trim`) and keeps every such text
(`trim_eq_self`); it is the one that stands between blanks (`trim_eq_of_toList_eq`), so further blanks
around a text do not count (`trim_append_blanks`).
-/

namespace RecipePlanner.Text

/-- The code points with the property White_Space. -/
def blankCodes : List Nat :=
  [0x09, 0x0A, 0x0B, 0x0C, 0x0D, 0x20, 0x85, 0xA0, 0x1680, 0x2000, 0x2001, 0x2002, 0x2003, 0x2004,
    0x2005, 0x2006, 0x2007, 0x2008, 0x2009, 0x200A, 0x2028, 0x2029, 0x202F, 0x205F, 0x3000]

/-- Whether a character is blank. -/
def isBlank (c : Char) : Bool := blankCodes.contains c.toNat

/-- The characters from the first one that is not blank. -/
def trimStart (cs : List Char) : List Char := cs.dropWhile isBlank

/-- The characters up to the last one that is not blank. -/
def trimEnd (cs : List Char) : List Char := (trimStart cs.reverse).reverse

/-- A text without the blanks at its two ends. -/
def trim (s : String) : String := String.ofList (trimEnd (trimStart s.toList))

/-- A text that starts with no blank keeps its start. -/
theorem trimStart_eq_self {cs : List Char} (h : ∀ c ∈ cs.head?, isBlank c = false) :
    trimStart cs = cs := by
  cases cs with
  | nil => rfl
  | cons c cs => simp [trimStart, h c (by simp)]

/-- What trimming leaves starts with no blank. -/
theorem head?_trimStart (cs : List Char) : ∀ c ∈ (trimStart cs).head?, isBlank c = false := by
  induction cs with
  | nil => simp [trimStart]
  | cons c cs ih =>
    by_cases h : isBlank c = true
    · simpa [trimStart, h] using ih
    · intro d hd
      simp [trimStart, h] at hd
      simpa [← hd] using h

/-- Trimming the end keeps a beginning of the text. -/
theorem trimEnd_isPrefix (cs : List Char) : trimEnd cs <+: cs := by
  have hsuffix : (trimEnd cs).reverse <:+ cs.reverse := by
    rw [trimEnd, List.reverse_reverse]
    exact List.dropWhile_suffix _
  exact List.reverse_suffix.1 hsuffix

theorem trimEnd_trimEnd (cs : List Char) : trimEnd (trimEnd cs) = trimEnd cs := by
  rw [trimEnd, trimEnd, List.reverse_reverse, trimStart_eq_self (head?_trimStart _)]

/-- The first character of what is left when the end is trimmed is that of the text. -/
theorem mem_head?_of_mem_head?_trimEnd {cs : List Char} {c : Char}
    (h : c ∈ (trimEnd cs).head?) : c ∈ cs.head? := by
  obtain ⟨rest, hrest⟩ := trimEnd_isPrefix cs
  rw [← hrest, List.head?_append, h]
  rfl

/-- A text that starts with no blank still starts with none when its end is trimmed. -/
theorem trimStart_trimEnd {cs : List Char} (h : ∀ c ∈ cs.head?, isBlank c = false) :
    trimStart (trimEnd cs) = trimEnd cs :=
  trimStart_eq_self fun c hc => h c (mem_head?_of_mem_head?_trimEnd hc)

/-- A first character that is not blank stays when the end is trimmed. -/
theorem trimEnd_cons {c : Char} (h : isBlank c = false) (cs : List Char) :
    trimEnd (c :: cs) = c :: trimEnd cs := by
  have hlast : [c].dropWhile isBlank = [c] := List.dropWhile_cons_of_neg (by simp [h])
  rw [trimEnd, trimEnd, trimStart, trimStart, List.reverse_cons, List.dropWhile_append, hlast]
  split
  · next hempty =>
    rw [List.isEmpty_iff.1 hempty]
    rfl
  · rw [List.reverse_append]
    rfl

/-- Trimming twice is trimming once. -/
theorem trim_trim (s : String) : trim (trim s) = trim s := by
  rw [trim, trim, String.toList_ofList, trimStart_trimEnd (head?_trimStart _), trimEnd_trimEnd]

/-! ## Texts without blanks at their ends -/

/-- Neither the first nor the last character is blank. -/
structure IsTrimmed (cs : List Char) : Prop where
  start : ∀ c ∈ cs.head?, isBlank c = false
  finish : ∀ c ∈ cs.getLast?, isBlank c = false

theorem isTrimmed_trim (s : String) : IsTrimmed (trim s).toList := by
  rw [trim, String.toList_ofList]
  constructor
  · rw [← trimStart_trimEnd (head?_trimStart s.toList)]
    exact head?_trimStart _
  · rw [trimEnd, List.getLast?_reverse]
    exact head?_trimStart _

/-- A text without blanks at its ends is not changed by trimming. -/
theorem trim_eq_self {s : String} (h : IsTrimmed s.toList) : trim s = s := by
  have hend : trimStart s.toList.reverse = s.toList.reverse := by
    apply trimStart_eq_self
    rw [List.head?_reverse]
    exact h.finish
  rw [trim, trimStart_eq_self h.start, trimEnd, hend, List.reverse_reverse, String.ofList_toList]

/-- A character in front that is not blank keeps the last character from being blank. -/
theorem getLast?_cons_of_not_isBlank {c : Char} {cs : List Char} (hc : isBlank c = false)
    (h : ∀ d ∈ cs.getLast?, isBlank d = false) : ∀ d ∈ (c :: cs).getLast?, isBlank d = false := by
  cases cs with
  | nil =>
    rintro d ⟨⟩
    exact hc
  | cons e cs => rwa [List.getLast?_cons_cons]

/-! ## Texts between blanks -/

/-- Blanks in front of a text that starts with none are trimmed off. -/
theorem trimStart_append {blanks cs : List Char} (hblanks : ∀ c ∈ blanks, isBlank c = true)
    (hcs : ∀ c ∈ cs.head?, isBlank c = false) : trimStart (blanks ++ cs) = cs := by
  rw [trimStart, List.dropWhile_append_of_pos hblanks]
  exact trimStart_eq_self hcs

/-- Blanks behind a text that ends with none are trimmed off. -/
theorem trimEnd_append {cs blanks : List Char} (hcs : ∀ c ∈ cs.getLast?, isBlank c = false)
    (hblanks : ∀ c ∈ blanks, isBlank c = true) : trimEnd (cs ++ blanks) = cs := by
  have hreverse : ∀ c ∈ blanks.reverse, isBlank c = true :=
    fun c hc => hblanks c (List.mem_reverse.1 hc)
  rw [trimEnd, List.reverse_append, trimStart_append hreverse, List.reverse_reverse]
  rwa [List.head?_reverse]

/-- Characters in front none of which is blank stay when the end is trimmed. -/
theorem trimEnd_append_of_forall {cs : List Char} (h : ∀ c ∈ cs, isBlank c = false)
    (rest : List Char) : trimEnd (cs ++ rest) = cs ++ trimEnd rest := by
  induction cs with
  | nil => rfl
  | cons c cs ih =>
    obtain ⟨hc, hcs⟩ := List.forall_mem_cons.1 h
    rw [List.cons_append, trimEnd_cons hc, ih hcs, List.cons_append]

/-- What a text is trimmed to is all that stands between its blanks. -/
theorem trim_eq_of_toList_eq {s : String} {front middle behind : List Char}
    (h : s.toList = front ++ (middle ++ behind)) (hfront : ∀ c ∈ front, isBlank c = true)
    (hmiddle : IsTrimmed middle) (hbehind : ∀ c ∈ behind, isBlank c = true) :
    trim s = String.ofList middle := by
  cases middle with
  | nil =>
    -- Nothing but blanks: the ones behind count as blanks in front, too.
    have hblanks : ∀ c ∈ front ++ behind, isBlank c = true :=
      List.forall_mem_append.2 ⟨hfront, hbehind⟩
    have hstart : trimStart (front ++ behind ++ []) = [] := trimStart_append hblanks nofun
    rw [List.append_nil] at hstart
    rw [trim, h, List.nil_append, hstart]
    rfl
  | cons c cs =>
    have hstart : ∀ d ∈ ((c :: cs) ++ behind).head?, isBlank d = false := hmiddle.start
    rw [trim, h, trimStart_append hfront hstart, trimEnd_append hmiddle.finish hbehind]

theorem trimEnd_append_takeWhile (cs : List Char) :
    trimEnd cs ++ (cs.reverse.takeWhile isBlank).reverse = cs := by
  rw [trimEnd, trimStart, ← List.reverse_append, List.takeWhile_append_dropWhile,
    List.reverse_reverse]

/-- A text is what it is trimmed to between blanks. -/
theorem exists_toList_eq_trim (s : String) :
    ∃ front behind, s.toList = front ++ ((trim s).toList ++ behind) ∧
      (∀ c ∈ front, isBlank c = true) ∧ ∀ c ∈ behind, isBlank c = true := by
  have hstart : s.toList.takeWhile isBlank ++ trimStart s.toList = s.toList :=
    List.takeWhile_append_dropWhile
  refine ⟨s.toList.takeWhile isBlank, ((trimStart s.toList).reverse.takeWhile isBlank).reverse,
    ?_, ?_, ?_⟩
  · rw [trim, String.toList_ofList, trimEnd_append_takeWhile, hstart]
  · exact List.all_eq_true.1 List.all_takeWhile
  · intro c hc
    exact List.all_eq_true.1 List.all_takeWhile c (List.mem_reverse.1 hc)

/-- Blanks around a text do not count. -/
theorem trim_append_blanks {front behind : String} (hfront : ∀ c ∈ front.toList, isBlank c = true)
    (hbehind : ∀ c ∈ behind.toList, isBlank c = true) (s : String) :
    trim (front ++ s ++ behind) = trim s := by
  obtain ⟨before, after, hs, hbefore, hafter⟩ := exists_toList_eq_trim s
  have hall : (front ++ s ++ behind).toList =
      (front.toList ++ before) ++ ((trim s).toList ++ (after ++ behind.toList)) := by
    rw [String.toList_append, String.toList_append, hs]
    simp only [List.append_assoc]
  rw [trim_eq_of_toList_eq hall (List.forall_mem_append.2 ⟨hfront, hbefore⟩) (isTrimmed_trim s)
    (List.forall_mem_append.2 ⟨hafter, hbehind⟩), String.ofList_toList]

end RecipePlanner.Text

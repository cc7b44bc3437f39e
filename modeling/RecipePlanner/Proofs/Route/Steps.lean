import RecipePlanner.Proofs.Outcome
import RecipePlanner.Route.Reader

/-!
# What each step of the reader accepts

One equivalence for each part of the reader says when it succeeds, with what, and what it leaves.
Proofs about the reader cite these and leave its definitions closed.
-/

namespace RecipePlanner.Route

open Outcome

theorem eat?_cons_self (b : UInt8) (rest : List UInt8) : eat? b (b :: rest) = some rest :=
  if_pos rfl

theorem eat?_cons_of_ne {b c : UInt8} (h : c ≠ b) (rest : List UInt8) :
    eat? b (c :: rest) = none :=
  if_neg h

theorem eat?_eq_some_iff {b : UInt8} {s rest : List UInt8} :
    eat? b s = some rest ↔ s = b :: rest := by
  cases s with
  | nil => simp [eat?]
  | cons c s => simp [eat?]

theorem eat?_eq_none_iff {b : UInt8} {s : List UInt8} : eat? b s = none ↔ s.head? ≠ some b := by
  cases s with
  | nil => simp [eat?]
  | cons c s => simp [eat?]

/-- A segment is a text that is not empty, with its bytes escaped. -/
theorem readSegment_eq_ok_iff {size : Nat} {s rest : List UInt8} {text : String} :
    readSegment size s = .ok (text, rest) ↔
      text ≠ "" ∧ unescape size s = .ok (Text.bytes text, rest) := by
  rw [readSegment, bind_eq_ok_iff]
  constructor
  · rintro ⟨⟨bs, left⟩, hu, hr⟩
    simp only at hr
    split at hr
    · cases hr
    · next hbs =>
      split at hr
      · next t ht =>
        cases hr
        have hbytes := Text.ofBytes?_eq_some_iff.1 ht
        refine ⟨?_, by rw [hu, hbytes]⟩
        rintro rfl
        exact hbs hbytes.symm
      · cases hr
  · rintro ⟨ht, hu⟩
    have hbytes : Text.bytes text ≠ [] := fun hb => ht (Text.bytes_injective hb)
    refine ⟨(Text.bytes text, rest), hu, ?_⟩
    simp only [if_neg hbytes, Text.ofBytes?_bytes]

/-- A choice is there exactly if its mark is. -/
theorem readChoice_eq_ok_iff {size : Nat} {s rest : List UInt8} {choice : Option String} :
    readChoice size s = .ok (choice, rest) ↔
      (eat? (byteOf '>') s = none ∧ choice = none ∧ s = rest) ∨
      ∃ inner text, eat? (byteOf '>') s = some inner ∧
        readSegment size inner = .ok (text, rest) ∧ choice = some text := by
  rw [readChoice]
  cases h : eat? (byteOf '>') s with
  | none => simp [eq_comm]
  | some inner =>
    simp only [map_eq_ok_iff, Prod.exists, Prod.mk.injEq, reduceCtorEq, false_and, false_or,
      Option.some.injEq]
    constructor
    · rintro ⟨text, left, hr, rfl, rfl⟩
      exact ⟨inner, text, rfl, hr, rfl⟩
    · rintro ⟨_, text, rfl, hr, rfl⟩
      exact ⟨text, rest, hr, rfl, rfl⟩

theorem readParts_zero_eq_ok_iff {part : List UInt8 → Except DecodeFault (Route × List UInt8)}
    {s rest : List UInt8} {ps : List Route} :
    readParts part 0 s = .ok (ps, rest) ↔ ∃ p, part s = .ok (p, rest) ∧ ps = [p] := by
  simp only [readParts, map_eq_ok_iff, Prod.exists, Prod.mk.injEq]
  constructor
  · rintro ⟨p, left, h, rfl, rfl⟩
    exact ⟨p, h, rfl⟩
  · rintro ⟨p, h, rfl⟩
    exact ⟨p, rest, h, rfl, rfl⟩

/-- Behind a part either another follows its mark or the parts end. -/
theorem readParts_succ_eq_ok_iff {part : List UInt8 → Except DecodeFault (Route × List UInt8)}
    {bound : Nat} {s rest : List UInt8} {ps : List Route} :
    readParts part (bound + 1) s = .ok (ps, rest) ↔
      ∃ p left, part s = .ok (p, left) ∧
        ((eat? (byteOf '|') left = none ∧ ps = [p] ∧ left = rest) ∨
          ∃ inner qs, eat? (byteOf '|') left = some inner ∧
            readParts part bound inner = .ok (qs, rest) ∧ ps = p :: qs) := by
  simp only [readParts, bind_eq_ok_iff, Prod.exists]
  refine exists_congr fun p => exists_congr fun left => and_congr_right fun _ => ?_
  cases h : eat? (byteOf '|') left with
  | none => simp [eq_comm]
  | some inner =>
    simp only [map_eq_ok_iff, Prod.exists, Prod.mk.injEq, reduceCtorEq, false_and, false_or,
      Option.some.injEq]
    constructor
    · rintro ⟨qs, _, hr, rfl, rfl⟩
      exact ⟨inner, qs, rfl, hr, rfl⟩
    · rintro ⟨_, qs, rfl, hr, rfl⟩
      exact ⟨qs, rest, hr, rfl, rfl⟩

/-- Parts that start with a parenthesis end with one. -/
theorem readGroup_eq_ok_iff {size : Nat}
    {part : List UInt8 → Except DecodeFault (Route × List UInt8)} {s rest : List UInt8}
    {ps : List Route} :
    readGroup size part s = .ok (ps, rest) ↔
      (eat? (byteOf '(') s = none ∧ readParts part s.length s = .ok (ps, rest)) ∨
      ∃ inner left, eat? (byteOf '(') s = some inner ∧
        readParts part inner.length inner = .ok (ps, left) ∧
        eat? (byteOf ')') left = some rest := by
  rw [readGroup]
  cases h : eat? (byteOf '(') s with
  | none => simp
  | some inner =>
    simp only [bind_eq_ok_iff, Prod.exists, reduceCtorEq, false_and, false_or, Option.some.injEq]
    constructor
    · rintro ⟨qs, left, hr, hc⟩
      cases he : eat? (byteOf ')') left with
      | none => simp [he] at hc
      | some left' =>
        simp only [he, Except.ok.injEq, Prod.mk.injEq] at hc
        obtain ⟨rfl, rfl⟩ := hc
        exact ⟨inner, left, rfl, hr, he⟩
    · rintro ⟨_, left, rfl, hr, he⟩
      exact ⟨ps, left, hr, by rw [he]⟩

/-- A node is an item that is new to its lineage, its choice and, behind a mark, its parts. -/
theorem readNode_succ_eq_ok_iff {size levels : Nat} {lineage : List String}
    {s rest : List UInt8} {r : Route} :
    readNode size (levels + 1) lineage s = .ok (r, rest) ↔
      ∃ item choice left left', readSegment size s = .ok (item, left) ∧ item ∉ lineage ∧
        readChoice size left = .ok (choice, left') ∧
        ((eat? (byteOf '~') left' = none ∧ r = node item choice [] ∧ left' = rest) ∨
          ∃ inner parts, eat? (byteOf '~') left' = some inner ∧
            readGroup size (readNode size levels (item :: lineage)) inner = .ok (parts, rest) ∧
            r = node item choice parts) := by
  rw [readNode, bind_eq_ok_iff]
  constructor
  · rintro ⟨⟨item, left⟩, hs, hr⟩
    simp only at hr
    split at hr
    · cases hr
    · next hi =>
      obtain ⟨⟨choice, left'⟩, hc, hr⟩ := bind_eq_ok_iff.1 hr
      refine ⟨item, choice, left, left', hs, hi, hc, ?_⟩
      simp only at hr
      split at hr
      · next he =>
        cases hr
        exact Or.inl ⟨he, rfl, rfl⟩
      · next inner he =>
        obtain ⟨⟨parts, left''⟩, hg, heq⟩ := map_eq_ok_iff.1 hr
        cases heq
        exact Or.inr ⟨inner, parts, he, hg, rfl⟩
  · rintro ⟨item, choice, left, left', hs, hi, hc, h⟩
    refine ⟨(item, left), hs, ?_⟩
    simp only [if_neg hi]
    refine bind_eq_ok_iff.2 ⟨(choice, left'), hc, ?_⟩
    rcases h with ⟨he, rfl, rfl⟩ | ⟨inner, parts, he, hg, rfl⟩
    · simp only [he]
    · simp only [he]
      exact map_eq_ok_iff.2 ⟨(parts, rest), hg, rfl⟩

theorem not_readNode_nil {size levels : Nat} {lineage : List String} {rest : List UInt8}
    {r : Route} : ¬ readNode size levels lineage [] = .ok (r, rest) := by
  intro h
  cases levels with
  | zero => cases h
  | succ levels => cases h

/-- A text is a route exactly if a node of it is all there is to read. -/
theorem decodeBytes_eq_ok_iff {s : List UInt8} {r : Route} :
    decodeBytes s = .ok r ↔ readNode s.length maxDepth [] s = .ok (r, []) := by
  rw [decodeBytes]
  split
  · next hs =>
    subst hs
    exact ⟨nofun, fun h => absurd h not_readNode_nil⟩
  · rw [bind_eq_ok_iff]
    constructor
    · rintro ⟨⟨r', left⟩, hr, hend⟩
      cases left with
      | nil =>
        cases hend
        exact hr
      | cons b left =>
        simp only at hend
        split at hend <;> cases hend
    · exact fun hr => ⟨(r, []), hr, rfl⟩

theorem decode?_eq_some_iff {s : String} {r : Route} :
    decode? s = some r ↔
      readNode (Text.bytes s).length maxDepth [] (Text.bytes s) = .ok (r, []) := by
  rw [← decodeBytes_eq_ok_iff, decode?, decode]
  cases decodeBytes (Text.bytes s) with
  | error e => exact ⟨nofun, nofun⟩
  | ok r' =>
    rw [Except.toOption, Option.some.injEq, Except.ok.injEq]

end RecipePlanner.Route

import RecipePlanner.Route.Printer

/-!
# Reading routes

The reader takes a node off the front of the bytes and returns what is left. Parts without
parentheses reach as far as there are separators. Along a lineage no item may repeat, and a route
may have at most `maxDepth` levels, so the reader recurses on the levels left. Positions in faults
count bytes from the start of the text; `size` is the length of the whole text and a position is
found from what is left.
-/

namespace RecipePlanner.Route

/-- Why a text is no route. -/
inductive DecodeFault where
  /-- There is no text. -/
  | empty
  /-- An item or a choice without bytes. -/
  | emptySegment (position : Nat)
  /-- A parenthesis without its partner. -/
  | unbalanced (position : Nat)
  /-- A character where the text should end. -/
  | unexpected (character : Char) (position : Nat)
  /-- A `%` without two digits, or a segment whose bytes are no text. -/
  | invalidEscape (position : Nat)
  /-- More levels than a route may have. -/
  | tooDeep
  /-- An item below itself. -/
  | repeatedItem (item : String)
  deriving DecidableEq, Repr

/-- The wording of a fault. -/
def DecodeFault.message : DecodeFault → String
  | empty => "empty path string"
  | emptySegment n => "empty segment at byte " ++ toString n
  | unbalanced n => "unbalanced group at byte " ++ toString n
  | unexpected c n => "unexpected '" ++ String.singleton c ++ "' at byte " ++ toString n
  | invalidEscape n => "invalid escape at byte " ++ toString n
  | tooDeep => "path nested deeper than " ++ toString maxDepth ++ " levels"
  | repeatedItem item => "item '" ++ item ++ "' repeats along one lineage"

/-- Whether a byte ends a segment. -/
def isMark (b : UInt8) : Bool :=
  b == byteOf '>' || b == byteOf '~' || b == byteOf '|' || b == byteOf '(' || b == byteOf ')'

/-- The value of a hexadecimal digit of either case. -/
def hexValue? (b : UInt8) : Option UInt8 :=
  if byteOf '0' ≤ b ∧ b ≤ byteOf '9' then some (b - byteOf '0')
  else if byteOf 'a' ≤ b ∧ b ≤ byteOf 'f' then some (b - byteOf 'a' + 10)
  else if byteOf 'A' ≤ b ∧ b ≤ byteOf 'F' then some (b - byteOf 'A' + 10)
  else none

/-- The byte written by two digits. -/
def hexPair? (high low : UInt8) : Option UInt8 := do
  let high ← hexValue? high
  let low ← hexValue? low
  pure (high * 16 + low)

/-- The bytes of a segment with escapes resolved, up to the next mark. -/
def unescape (size : Nat) : List UInt8 → Except DecodeFault (List UInt8 × List UInt8)
  | [] => .ok ([], [])
  | b :: rest =>
    if isMark b then .ok ([], b :: rest)
    else if b = byteOf '%' then
      match rest with
      | high :: low :: left =>
        match hexPair? high low with
        | some c => (unescape size left).map fun (cs, left) => (c :: cs, left)
        | none => .error (.invalidEscape (size - (b :: rest).length))
      | _ => .error (.invalidEscape (size - (b :: rest).length))
    else (unescape size rest).map fun (cs, left) => (b :: cs, left)

/-- An item or a choice. -/
def readSegment (size : Nat) (s : List UInt8) : Except DecodeFault (String × List UInt8) := do
  let (bs, rest) ← unescape size s
  if bs = [] then .error (.emptySegment (size - s.length))
  else match Text.ofBytes? bs with
    | some text => .ok (text, rest)
    | none => .error (.invalidEscape (size - s.length))

/-- What is left behind a byte, if that byte comes next. -/
def eat? (b : UInt8) : List UInt8 → Option (List UInt8)
  | [] => none
  | c :: rest => if c = b then some rest else none

/-- A choice, if its mark comes next. -/
def readChoice (size : Nat) (s : List UInt8) : Except DecodeFault (Option String × List UInt8) :=
  match eat? (byteOf '>') s with
  | some rest => (readSegment size rest).map fun (text, rest) => (some text, rest)
  | none => .ok (none, s)

/-- A part and those behind it. Each takes at least one byte, so the length of the text bounds how
many may follow. -/
def readParts (part : List UInt8 → Except DecodeFault (Route × List UInt8)) :
    (bound : Nat) → List UInt8 → Except DecodeFault (List Route × List UInt8)
  | 0, s => (part s).map fun (p, rest) => ([p], rest)
  | bound + 1, s => do
    let (p, rest) ← part s
    match eat? (byteOf '|') rest with
    | some rest => (readParts part bound rest).map fun (ps, rest) => (p :: ps, rest)
    | none => .ok ([p], rest)

/-- Parts in parentheses or without. -/
def readGroup (size : Nat) (part : List UInt8 → Except DecodeFault (Route × List UInt8))
    (s : List UInt8) : Except DecodeFault (List Route × List UInt8) :=
  match eat? (byteOf '(') s with
  | none => readParts part s.length s
  | some inner => do
    let (ps, rest) ← readParts part inner.length inner
    match eat? (byteOf ')') rest with
    | some rest => .ok (ps, rest)
    | none => .error (.unbalanced (size - s.length))

/-- A node with at most `levels` levels below the items of `lineage`. -/
def readNode (size : Nat) :
    (levels : Nat) → (lineage : List String) → List UInt8 → Except DecodeFault (Route × List UInt8)
  | 0, _, _ => .error .tooDeep
  | levels + 1, lineage, s => do
    let (item, rest) ← readSegment size s
    -- A repeated item is told before anything that is wrong behind it.
    if item ∈ lineage then .error (.repeatedItem item)
    else
      let (choice, rest) ← readChoice size rest
      match eat? (byteOf '~') rest with
      | none => .ok (node item choice [], rest)
      | some rest =>
        (readGroup size (readNode size levels (item :: lineage)) rest).map fun (parts, rest) =>
          (node item choice parts, rest)

/-- The first character of a text given by its bytes. -/
def firstChar (bs : List UInt8) : Char :=
  ((Text.ofBytes? bs).bind fun s => s.toList.head?).getD '\uFFFD'

/-- The route written by some bytes. -/
def decodeBytes (s : List UInt8) : Except DecodeFault Route :=
  if s = [] then .error .empty
  else do
    let (r, rest) ← readNode s.length maxDepth [] s
    match rest with
    | [] => .ok r
    | b :: _ =>
      let position := s.length - rest.length
      if b = byteOf ')' then .error (.unbalanced position)
      else .error (.unexpected (firstChar rest) position)

/-- The route written by a text. -/
def decode (s : String) : Except DecodeFault Route := decodeBytes (Text.bytes s)

/-- The route written by a text, if it is one. -/
def decode? (s : String) : Option Route := (decode s).toOption

end RecipePlanner.Route

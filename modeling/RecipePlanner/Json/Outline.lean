import RecipePlanner.Json.Reader

/-!
# Outlines of JSON values

A value that no field holds is passed over, and of its text only the outline counts: lists, objects,
names and marks stand as in any value, but a number may be out of range, an escape may stand for no
character, and nesting has no bound.
-/

namespace RecipePlanner.Json

/-- The text behind the closing quote. -/
def passText : List Char → Option (List Char)
  | [] => none
  | '"' :: rest => some rest
  | '\\' :: 'u' :: a :: b :: c :: d :: rest =>
    if (Text.numeral? 16 [a, b, c, d]).isSome then passText rest else none
  | '\\' :: c :: rest => if (escaped? c).isSome then passText rest else none
  | c :: rest => if c.toNat < 0x20 then none else passText rest

/-- The text behind a number. -/
def passNumber (s : List Char) : Option (List Char) :=
  let s := match s with
    | '-' :: rest => rest
    | s => s
  match readDigits s with
  | ([], _) | (0 :: _ :: _, _) => none
  | (_, '.' :: rest) =>
    match readDigits rest with
    | ([], _) => none
    | (_, rest) => (readExponent rest).map (·.2)
  | (_, rest) => (readExponent rest).map (·.2)

/-- The text behind a value that holds no other values. -/
def passScalar : List Char → Option (List Char)
  | 'n' :: 'u' :: 'l' :: 'l' :: rest => some rest
  | 't' :: 'r' :: 'u' :: 'e' :: rest => some rest
  | 'f' :: 'a' :: 'l' :: 's' :: 'e' :: rest => some rest
  | '"' :: rest => passText rest
  | s => passNumber s

/-- The text behind a name, a colon and a value. -/
def passMember (value : Text.Reader Unit) (s : List Char) : Option (Unit × List Char) := do
  match skipBlanks s with
  | '"' :: rest =>
    match skipBlanks (← passText rest) with
    | ':' :: rest => value rest
    | _ => none
  | _ => none

/-- The text behind a value. Each level of lists and objects takes a character, and so does each of
their entries, so the length of the text bounds their number. -/
def passWithin : (bound : Nat) → Text.Reader Unit
  | 0, _ => none
  | bound + 1, s =>
    match skipBlanks s with
    | '[' :: rest => (series.read bound (passWithin bound) ']' rest).map fun (_, rest) => ((), rest)
    | '{' :: rest =>
      (series.read bound (passMember (passWithin bound)) '}' rest).map fun (_, rest) => ((), rest)
    | s => (passScalar s).map fun rest => ((), rest)

/-- The text behind a value. -/
def passValue (s : List Char) : Option (List Char) :=
  (passWithin (s.length + 1) s).map (·.2)

end RecipePlanner.Json

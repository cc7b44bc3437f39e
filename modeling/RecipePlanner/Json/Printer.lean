import RecipePlanner.Double.Shortest
import RecipePlanner.Json.Basic

/-!
# Writing JSON text

The compact form of a value, doubles with the fewest digits. Control characters and the line
separators of Unicode are escaped, so a written value stays on one line.
-/

namespace RecipePlanner.Json

/-- A hexadecimal digit. -/
def hexChar (n : Nat) : Char := Char.ofNat (if n < 10 then '0'.toNat + n else 'a'.toNat + (n - 10))

/-- A code below `0x10000` as an escape of four digits. -/
def escapeCode (n : Nat) : List Char :=
  ['\\', 'u', hexChar (n / 4096 % 16), hexChar (n / 256 % 16), hexChar (n / 16 % 16),
    hexChar (n % 16)]

/-- A character inside quotes. -/
def escapeChar (c : Char) : List Char :=
  if c = '"' then ['\\', '"']
  else if c = '\\' then ['\\', '\\']
  else if c.toNat < 0x20 ∨ c.toNat = 0x85 ∨ c.toNat = 0x2028 ∨ c.toNat = 0x2029 then
    escapeCode c.toNat
  else [c]

/-- A text in quotes. -/
def quote (s : String) : String :=
  String.ofList ('"' :: s.toList.flatMap escapeChar ++ ['"'])

/-- How many places in front of the point a decimal may have that is written without exponent. -/
def maxPlaces : Nat := 16

/-- How many zeros may stand behind the point in front of the digits. -/
def maxZeros : Nat := 4

/-- A decimal with a point: in positional notation with at least one digit on either side of the
point, or with an exponent behind the first digit and its places, if there are any. -/
def renderDecimal (d : Decimal) : String :=
  let digits := Nat.toDigits 10 d.digits
  let zeros := fun (n : Nat) => List.replicate n '0'
  -- The point stands behind this many digits.
  let point := d.exponent + digits.length
  String.ofList <|
    if 0 ≤ d.exponent ∧ point ≤ maxPlaces then digits ++ zeros d.exponent.toNat ++ ['.', '0']
    else if 0 < point ∧ point ≤ maxPlaces then
      digits.take point.toNat ++ '.' :: digits.drop point.toNat
    else if -(maxZeros : Int) ≤ point ∧ point ≤ 0 then
      '0' :: '.' :: zeros (-point).toNat ++ digits
    else
      let places := digits.drop 1
      digits.take 1 ++ (if places.isEmpty then [] else '.' :: places) ++
        'e' :: (toString (point - 1)).toList

/-- A number. -/
def Number.render : Number → String
  | .whole i => toString i
  | .real negative x => (if negative then "-" else "") ++ renderDecimal x.shortest

mutual

/-- A value behind the text `acc`. -/
def renderOnto (acc : String) : Json → String
  | .null => acc ++ "null"
  | .bool b => acc ++ (if b then "true" else "false")
  | .number n => acc ++ n.render
  | .text s => acc ++ quote s
  | .list items => renderItems (acc ++ "[") items ++ "]"
  | .object members => renderMembers (acc ++ "\x7b") members ++ "\x7d"

/-- Values separated by commas. -/
def renderItems (acc : String) : List Json → String
  | [] => acc
  | [v] => renderOnto acc v
  | v :: w :: vs => renderItems (renderOnto acc v ++ ",") (w :: vs)

/-- Members separated by commas. -/
def renderMembers (acc : String) : List (String × Json) → String
  | [] => acc
  | [(k, v)] => renderOnto (acc ++ quote k ++ ":") v
  | (k, v) :: m :: ms => renderMembers (renderOnto (acc ++ quote k ++ ":") v ++ ",") (m :: ms)

end

/-- The text of a value. -/
def render (v : Json) : String := renderOnto "" v

end RecipePlanner.Json

import RecipePlanner.Route
import RecipePlanner.Text.Bytes

/-!
# Routes as text

A route is written as its item, `>` and the choice if there is one, and `~` and the parts if there
are any, with `|` between parts. The parts of a node that has a sibling behind it stand in
parentheses, so that they end before the sibling. Bytes other than ASCII letters, digits and
`_`, `-`, `.`, `:`, `/` are written as `%` and two hexadecimal digits, so the text can be part of a
web address.
-/

namespace RecipePlanner.Route

/-- The byte of an ASCII character. -/
def byteOf (c : Char) : UInt8 := UInt8.ofNat c.toNat

/-- Whether a byte stands for itself. -/
def isPlain (b : UInt8) : Bool :=
  (byteOf '0' ≤ b && b ≤ byteOf '9') || (byteOf 'a' ≤ b && b ≤ byteOf 'z') ||
  (byteOf 'A' ≤ b && b ≤ byteOf 'Z') || b == byteOf '_' || b == byteOf '-' || b == byteOf '.' ||
  b == byteOf ':' || b == byteOf '/'

/-- A hexadecimal digit. -/
def hexByte (n : UInt8) : UInt8 := if n < 10 then byteOf '0' + n else byteOf 'A' + (n - 10)

/-- A byte inside a segment. -/
def escapeByte (b : UInt8) : List UInt8 :=
  if isPlain b then [b] else [byteOf '%', hexByte (b / 16), hexByte (b % 16)]

/-- An item or a choice. -/
def segment (s : String) : List UInt8 := (Text.bytes s).flatMap escapeByte

/-- A choice with its mark, nothing if there is none. -/
def choiceBytes : Option String → List UInt8
  | none => []
  | some c => byteOf '>' :: segment c

mutual

/-- A node; `grouped` if a sibling follows. -/
def nodeBytes (grouped : Bool) : Route → List UInt8
  | node i c ps =>
    segment i ++ choiceBytes c ++
      if ps.isEmpty then []
      else if grouped then byteOf '~' :: byteOf '(' :: partsBytes ps ++ [byteOf ')']
      else byteOf '~' :: partsBytes ps

/-- Parts with separators between them. -/
def partsBytes : List Route → List UInt8
  | [] => []
  | p :: ps =>
    nodeBytes (!ps.isEmpty) p ++ if ps.isEmpty then [] else byteOf '|' :: partsBytes ps

end

/-- The text of a route. -/
def encode (r : Route) : String :=
  String.ofList ((nodeBytes false r).map fun b => Char.ofNat b.toNat)

end RecipePlanner.Route

import RecipePlanner.Double
import RecipePlanner.Word

/-!
# JSON values

A value keeps the members of an object in written order, repeated names included. Free documents
take the last member of a name (`field?`); data of a fixed shape refuses repeated names
(`Json.Fields`). Numbers are whole numbers of 64 bits or doubles.
-/

namespace RecipePlanner

namespace Json

/-- A number: a whole one, or a double with its sign. -/
inductive Number where
  | whole (value : Int)
  | real (negative : Bool) (magnitude : Double)
  deriving DecidableEq, Repr

/-- The whole part of a number, held within 64 bits. -/
def Number.truncated : Number → Int
  | .whole i => min i Word.maxSigned64
  | .real false x => min x.floor Word.maxSigned64
  | .real true x => -(min x.floor (Word.maxSigned64 + 1) : Nat)

end Json

/-- A JSON value. -/
inductive Json where
  | null
  | bool (value : Bool)
  | number (value : Json.Number)
  | text (value : String)
  | list (items : List Json)
  | object (members : List (String × Json))
  deriving Repr, Inhabited

namespace Json

/-- A whole number. -/
def ofNat (n : Nat) : Json := .number (.whole n)

/-- The value of the last member with this name. -/
def field? (name : String) : Json → Option Json
  | .object members => (members.reverse.lookup name)
  | _ => none

/-- The text of a text value. -/
def text? : Json → Option String
  | .text s => some s
  | _ => none

/-- The items of a list. -/
def list? : Json → Option (List Json)
  | .list items => some items
  | _ => none

/-- A whole number from 0 to `max`. -/
def natUpTo? (max : Nat) : Json → Option Nat
  | .number (.whole i) => if 0 ≤ i ∧ i ≤ max then some i.toNat else none
  | _ => none

end Json

end RecipePlanner

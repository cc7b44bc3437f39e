import RecipePlanner.FileTree
import RecipePlanner.Json.Basic
import RecipePlanner.Text.Digits

/-!
# Trees of files as JSON

A tree is an object from paths to what is there: for a file a text or, as pairs of hexadecimal
digits, bytes, and for a folder null. Folders on the way to a path are made.
-/

namespace RecipePlanner.FileTree

/-- The bytes that pairs of hexadecimal digits write. A last digit without a partner writes none. -/
def hexBytes? : List Char → Option (List UInt8)
  | [] | [_] => some []
  | a :: b :: rest => do pure (UInt8.ofNat (← Text.numeral? 16 [a, b]) :: (← hexBytes? rest))

/-- The tree with what a value says at a path. -/
def addJson? (t : FileTree) (path : String) : Json → Option FileTree
  | .text s => some (t.addFile path (Text.bytes s))
  | .null => some (t.addFolder path)
  | v => do
    let digits ← (← v.field? "hex").text?
    pure (t.addFile path (← hexBytes? digits.toList))

/-- The tree with the folder `base` and in it all that an object lists. -/
def ofJson? (base : String) : Json → Option FileTree
  | .object files =>
    files.foldlM (fun t (path, v) => t.addJson? (Files.Path.join base path) v)
      (empty.addFolder base)
  | _ => none

end RecipePlanner.FileTree

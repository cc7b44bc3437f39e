import RecipePlanner.Text.Digits
import RecipePlanner.Text.Series

/-!
# Texts of RON

A text stands between double quotes and a single character between single ones; in both a backslash
starts an escape. In a raw text every character stands for itself, up to a double quote with as
many number signs behind it as stand in front of the first quote.
-/

namespace RecipePlanner.Ron

open Text (Reader)

/-- The character that stands behind a backslash, if it is a single one. -/
def escaped? : Char → Option Char
  | '\'' => some '\''
  | '"' => some '"'
  | '\\' => some '\\'
  | 'n' => some '\n'
  | 'r' => some '\r'
  | 't' => some '\t'
  | '0' => some '\x00'
  | _ => none

/-- Where the characters of a text stand: outside an escape, behind a backslash, or inside a code
of which the digits read so far are known. -/
inductive Inside where
  | plain
  | escape
  | byte (digits : List Char)
  | openCode
  | code (digits : List Char)

/-- The character of a code. -/
def ofCode? (digits : List Char) : Option Char := (Text.numeral? 16 digits).bind Text.ofCode?

/-- A character in front of what follows. -/
def before (c : Char) (read : Option (List Char × List Char)) : Option (List Char × List Char) :=
  read.map fun (cs, rest) => (c :: cs, rest)

/-- The characters up to the closing quote. A code of two digits stands behind `\x`, one of up to
six digits in braces behind `\u`. -/
def readQuoted (quote : Char) : Inside → Reader (List Char)
  | _, [] => none
  | .plain, c :: rest =>
    if c = quote then some ([], rest)
    else if c = '\\' then readQuoted quote .escape rest
    else before c (readQuoted quote .plain rest)
  | .escape, c :: rest =>
    if c = 'x' then readQuoted quote (.byte []) rest
    else if c = 'u' then readQuoted quote .openCode rest
    else match escaped? c with
      | some e => before e (readQuoted quote .plain rest)
      | none => none
  | .byte [], c :: rest => readQuoted quote (.byte [c]) rest
  | .byte (d :: ds), c :: rest =>
    match ofCode? (d :: ds ++ [c]) with
    | some e => before e (readQuoted quote .plain rest)
    | none => none
  | .openCode, c :: rest => if c = '\x7b' then readQuoted quote (.code []) rest else none
  | .code ds, c :: rest =>
    if c ≠ '\x7d' then readQuoted quote (.code (ds ++ [c])) rest
    else if ds.length > 6 then none
    else match ofCode? ds with
      | some e => before e (readQuoted quote .plain rest)
      | none => none

/-- A text behind its opening quote. -/
def readText (s : List Char) : Option (String × List Char) :=
  (readQuoted '"' .plain s).map fun (cs, rest) => (String.ofList cs, rest)

/-- A single character behind its opening quote. -/
def readCharacter (s : List Char) : Option (Char × List Char) :=
  match readQuoted '\'' .plain s with
  | some ([c], rest) => some (c, rest)
  | _ => none

/-- The characters of a raw text up to a quote with `marks` number signs behind it. -/
def readRaw (marks : Nat) : Reader (List Char)
  | [] => none
  | c :: rest =>
    if c = '"' ∧ (List.replicate marks '#').isPrefixOf rest then some ([], rest.drop marks)
    else before c (readRaw marks rest)

/-- A raw text behind its `r`. -/
def readRawText (s : List Char) : Option (String × List Char) :=
  match s.dropWhile (· = '#') with
  | '"' :: rest =>
    (readRaw (s.takeWhile (· = '#')).length rest).map fun (cs, rest) => (String.ofList cs, rest)
  | _ => none

end RecipePlanner.Ron

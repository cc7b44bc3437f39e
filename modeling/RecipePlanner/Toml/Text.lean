import RecipePlanner.Text.Digits
import RecipePlanner.Text.Series

/-!
# Texts and keys of TOML

A text stands between double quotes, where a backslash starts an escape, or between single quotes,
where every character stands for itself. Three quotes at either end let it run over several lines;
a line break at its start is dropped, and behind a backslash at the end of a line so is everything
up to the next character that is not blank. A key is a run of names with dots between them, each
bare or quoted.
-/

namespace RecipePlanner.Toml

open Text (Reader)

/-- Whether a character separates what stands on one line. -/
def isBlank (c : Char) : Bool := c = ' ' || c = '\t'

/-- Whether a character may stand in a comment or a text. -/
def isPrintable (c : Char) : Bool := c = '\t' || (0x20 ≤ c.toNat && c.toNat ≠ 0x7F)

/-- The text behind the blanks at its front. -/
def skipBlanks (s : List Char) : List Char := s.dropWhile isBlank

/-- The text behind the comment at its front, if there is one. -/
def skipComment : List Char → List Char
  | '#' :: rest => rest.dropWhile isPrintable
  | s => s

/-- The text behind a line break, written as a line feed with or without a carriage return. -/
def skipBreak? : List Char → Option (List Char)
  | '\n' :: rest => some rest
  | '\r' :: '\n' :: rest => some rest
  | _ => none

/-- The text behind blanks, comments and line breaks; `inComment` inside a comment. -/
def skipLinesFrom (inComment : Bool) : List Char → List Char
  | [] => []
  | '\r' :: '\n' :: rest => skipLinesFrom false rest
  | c :: rest =>
    if c = '\n' then skipLinesFrom false rest
    else if inComment then if isPrintable c then skipLinesFrom true rest else c :: rest
    else if isBlank c then skipLinesFrom false rest
    else if c = '#' then skipLinesFrom true rest
    else c :: rest

/-- The text behind blanks, comments and line breaks. -/
def skipLines (s : List Char) : List Char := skipLinesFrom false s

/-! ## Texts on one line -/

/-- The character that stands behind a backslash, if it is a single one. -/
def escaped? : Char → Option Char
  | 'b' => some '\x08'
  | 't' => some '\t'
  | 'n' => some '\n'
  | 'f' => some '\x0c'
  | 'r' => some '\r'
  | '"' => some '"'
  | '\\' => some '\\'
  | _ => none

/-- The number of digits of the code behind a backslash and this character. -/
def codeLength? : Char → Option Nat
  | 'u' => some 4
  | 'U' => some 8
  | _ => none

/-- Where the characters of a text stand. -/
inductive Inside where
  | plain
  /-- Behind a backslash. -/
  | escape
  /-- Inside a code with `missing` digits to come. -/
  | code (missing : Nat) (digits : List Char)
  /-- Behind a backslash and blanks, where a line break has to follow. -/
  | lineEnd
  /-- Behind a backslash and a line break. -/
  | folded

/-- A character in front of what follows. -/
def before (c : Char) (read : Option (List Char × List Char)) : Option (List Char × List Char) :=
  read.map fun (cs, rest) => (c :: cs, rest)

/-- What a character behind a backslash starts or stands for. -/
def escape? (c : Char) : Option (Inside ⊕ Char) :=
  match codeLength? c with
  | some n => some (.inl (.code n []))
  | none => (escaped? c).map .inr

/-- The character of a code. -/
def ofCode? (digits : List Char) : Option Char := (Text.numeral? 16 digits).bind Text.ofCode?

/-- The characters of a text up to its closing double quote. -/
def readQuoted : Inside → Reader (List Char)
  | _, [] => none
  | .escape, c :: rest =>
    match escape? c with
    | some (.inl inside) => readQuoted inside rest
    | some (.inr e) => before e (readQuoted .plain rest)
    | none => none
  | .code missing digits, c :: rest =>
    if missing > 1 then readQuoted (.code (missing - 1) (digits ++ [c])) rest
    else match ofCode? (digits ++ [c]) with
      | some e => before e (readQuoted .plain rest)
      | none => none
  | _, c :: rest =>
    if c = '"' then some ([], rest)
    else if c = '\\' then readQuoted .escape rest
    else if isPrintable c then before c (readQuoted .plain rest)
    else none

/-- The characters of a text up to its closing single quote. -/
def readLiteral : Reader (List Char)
  | [] => none
  | c :: rest =>
    if c = '\'' then some ([], rest)
    else if isPrintable c then before c (readLiteral rest)
    else none

/-! ## Texts on several lines -/

/-- The text without the line break at its front. -/
def dropBreak (s : List Char) : List Char := (skipBreak? s).getD s

/-- What remains of a text at three quotes, which end it; up to two more belong to it. -/
def closing (quote : Char) : List Char → List Char × List Char
  | c :: d :: rest =>
    if c = quote ∧ d = quote then ([quote, quote], rest)
    else if c = quote then ([quote], d :: rest)
    else ([], c :: d :: rest)
  | [c] => if c = quote then ([quote], []) else ([], [c])
  | [] => ([], [])

/-- The characters of a text up to three double quotes. -/
def readQuotedLines : Inside → Reader (List Char)
  | _, [] => none
  | .escape, '\r' :: '\n' :: rest => readQuotedLines .folded rest
  | .escape, c :: rest =>
    if c = '\n' then readQuotedLines .folded rest
    else if isBlank c then readQuotedLines .lineEnd rest
    else match escape? c with
      | some (.inl inside) => readQuotedLines inside rest
      | some (.inr e) => before e (readQuotedLines .plain rest)
      | none => none
  | .code missing digits, c :: rest =>
    if missing > 1 then readQuotedLines (.code (missing - 1) (digits ++ [c])) rest
    else match ofCode? (digits ++ [c]) with
      | some e => before e (readQuotedLines .plain rest)
      | none => none
  | .lineEnd, '\r' :: '\n' :: rest => readQuotedLines .folded rest
  | .lineEnd, c :: rest =>
    if c = '\n' then readQuotedLines .folded rest
    else if isBlank c then readQuotedLines .lineEnd rest
    else none
  | .folded, '\r' :: '\n' :: rest => readQuotedLines .folded rest
  | .plain, '\r' :: '\n' :: rest => before '\n' (readQuotedLines .plain rest)
  | _, '"' :: '"' :: '"' :: rest => some (closing '"' rest)
  | inside, c :: rest =>
    if c = '\\' then readQuotedLines .escape rest
    else if c = '\n' ∨ isBlank c then
      match inside with
      -- Behind a folded line break, blanks are dropped up to the next character.
      | .folded => readQuotedLines .folded rest
      | _ => before c (readQuotedLines .plain rest)
    else if isPrintable c then before c (readQuotedLines .plain rest)
    else none

/-- The characters of a text up to three single quotes. -/
def readLiteralLines : Reader (List Char)
  | '\'' :: '\'' :: '\'' :: rest => some (closing '\'' rest)
  | '\r' :: '\n' :: rest => before '\n' (readLiteralLines rest)
  | c :: rest =>
    if c = '\n' ∨ isPrintable c then before c (readLiteralLines rest) else none
  | [] => none

/-- A text with its quotes. -/
def readText : Reader (List Char)
  | '"' :: '"' :: '"' :: rest => readQuotedLines .plain (dropBreak rest)
  | '\'' :: '\'' :: '\'' :: rest => readLiteralLines (dropBreak rest)
  | '"' :: rest => readQuoted .plain rest
  | '\'' :: rest => readLiteral rest
  | _ => none

/-! ## Keys -/

/-- Whether a character may stand in a bare name. -/
def isNameChar (c : Char) : Bool := c.isAlphanum || c = '_' || c = '-'

/-- A name, bare or quoted on one line. -/
def readName : Reader (List Char)
  | '"' :: rest => readQuoted .plain rest
  | '\'' :: rest => readLiteral rest
  | s =>
    match s.takeWhile isNameChar with
    | [] => none
    | name => some (name, s.dropWhile isNameChar)

/-- Names with dots between them. -/
def readNames : (bound : Nat) → Reader (List String)
  | 0, _ => none
  | bound + 1, s => do
    let (name, rest) ← readName (skipBlanks s)
    match skipBlanks rest with
    | '.' :: rest =>
      let (names, rest) ← readNames bound rest
      pure (String.ofList name :: names, rest)
    | rest => pure ([String.ofList name], rest)

/-- A key has fewer names than this. -/
def keyLimit : Nat := 80

/-- A key, and the text behind the blanks that follow it. -/
def readKey (s : List Char) : Option (List String × List Char) := readNames (keyLimit - 1) s

end RecipePlanner.Toml

/-!
# Digits and strings in a document

Numbers are spelled in base ten, or in base two, eight or sixteen. The digits are
also those of the numbers of characters within a string.

There are four forms of string: between quotes or between apostrophes, on one
line or in a block with tripled marks. A string is read in two steps. The first
finds where it ends, and only needs to know that a backslash keeps the next
character from ending it. The second checks the characters in between and, in
quotes, replaces the escapes.

A reader takes the characters that are left of the document and gives a value
with what is left behind it, or nothing if the document is malformed.
-/

set_option autoImplicit false

namespace WindowForest.Toml

/-! ## Digits -/

/-- The value of a digit in any base up to sixteen, and sixteen for any other character. -/
def digitValue (c : Char) : Nat :=
  if '0' ≤ c ∧ c ≤ '9' then c.toNat - '0'.toNat
  else if 'a' ≤ c ∧ c ≤ 'f' then c.toNat - 'a'.toNat + 10
  else if 'A' ≤ c ∧ c ≤ 'F' then c.toNat - 'A'.toNat + 10
  else 16

/-- The number that digits spell in a base. -/
def ofDigits (base : Nat) (cs : List Char) : Nat :=
  cs.foldl (fun acc c => base * acc + digitValue c) 0

/-! ## Characters -/

/-- Whether a character may stand in a string or a comment: no control character but the tab. -/
def isTextChar (c : Char) : Bool := c = '\t' || ('\x20' ≤ c && c ≠ '\x7f')

/-- Whether a character is white space within a line. -/
def isBlank (c : Char) : Bool := c = ' ' || c = '\t'

/-- A line end in front, if there is one. -/
def lineEnd? : List Char → Option (List Char)
  | '\n' :: r => some r
  | '\r' :: '\n' :: r => some r
  | _ => none

/-- What is left when a line end in front is dropped. -/
def dropLineEnd (cs : List Char) : List Char := (lineEnd? cs).getD cs

/-- What is left when white space and line ends in front are dropped. -/
def dropBlankLines : List Char → List Char
  | ' ' :: r => dropBlankLines r
  | '\t' :: r => dropBlankLines r
  | '\n' :: r => dropBlankLines r
  | '\r' :: '\n' :: r => dropBlankLines r
  | r => r

/-! ## Where a string ends -/

/-- The characters up to the quote that ends a string, and what follows it. -/
def quotedRaw : List Char → Option (List Char × List Char)
  | [] => none
  | '"' :: r => some ([], r)
  | '\\' :: c :: r => (quotedRaw r).map fun (s, r) => ('\\' :: c :: s, r)
  | c :: r => (quotedRaw r).map fun (s, r) => (c :: s, r)

/-- The characters up to the three quotes that end a block, and what follows them. Up to two quotes
in front of those belong to the block. -/
def quotedBlockRaw : List Char → Option (List Char × List Char)
  | [] => none
  | '"' :: '"' :: '"' :: '"' :: '"' :: r => some (['"', '"'], r)
  | '"' :: '"' :: '"' :: '"' :: r => some (['"'], r)
  | '"' :: '"' :: '"' :: r => some ([], r)
  | '\\' :: c :: r => (quotedBlockRaw r).map fun (s, r) => ('\\' :: c :: s, r)
  | c :: r => (quotedBlockRaw r).map fun (s, r) => (c :: s, r)

/-- The characters up to the apostrophe that ends a string, and what follows it. -/
def literalRaw : List Char → Option (List Char × List Char)
  | [] => none
  | '\'' :: r => some ([], r)
  | c :: r => (literalRaw r).map fun (s, r) => (c :: s, r)

/-- The characters up to the three apostrophes that end a block, and what follows them. Up to two
apostrophes in front of those belong to the block. -/
def literalBlockRaw : List Char → Option (List Char × List Char)
  | [] => none
  | '\'' :: '\'' :: '\'' :: '\'' :: '\'' :: r => some (['\'', '\''], r)
  | '\'' :: '\'' :: '\'' :: '\'' :: r => some (['\''], r)
  | '\'' :: '\'' :: '\'' :: r => some ([], r)
  | c :: r => (literalBlockRaw r).map fun (s, r) => (c :: s, r)

/-! ## What a string says -/

/-- The character whose number is written in `n` hexadecimal digits, and what follows them. -/
def numberedChar (n : Nat) (cs : List Char) : Option (Char × List Char) :=
  let digits := cs.take n
  let code := ofDigits 16 digits
  if digits.length = n ∧ digits.all (digitValue · < 16) ∧ code.isValidChar then
    some (Char.ofNat code, cs.drop n)
  else none

/-- The character that an escape stands for, given what follows the backslash. -/
def escapedChar : List Char → Option (Char × List Char)
  | 'b' :: r => some ('\x08', r)
  | 't' :: r => some ('\t', r)
  | 'n' :: r => some ('\n', r)
  | 'f' :: r => some ('\x0c', r)
  | 'r' :: r => some ('\r', r)
  | 'e' :: r => some ('\x1b', r)
  | '"' :: r => some ('"', r)
  | '\\' :: r => some ('\\', r)
  | 'x' :: r => numberedChar 2 r
  | 'u' :: r => numberedChar 4 r
  | 'U' :: r => numberedChar 8 r
  | _ => none

/-- A string without escapes, if all of its characters are allowed in it. Line ends are only allowed
in a block. -/
def literalText (block : Bool) : List Char → Option (List Char)
  | [] => some []
  | '\n' :: r => if block then (literalText block r).map ('\n' :: ·) else none
  | '\r' :: '\n' :: r =>
    if block then (literalText block r).map ('\r' :: '\n' :: ·) else none
  | c :: r => if isTextChar c then (literalText block r).map (c :: ·) else none

/-- What a backslash at the end of a line leaves of the text behind it: the line end, and the white
space and empty lines around it, are dropped. -/
def continuation? (cs : List Char) : Option (List Char) :=
  (lineEnd? (cs.dropWhile isBlank)).map dropBlankLines

/-- A string whose escapes are replaced, if they and all other characters are allowed in it. Every
step drops a character, so the length of the string suffices as the bound `n`. -/
def quotedText (block : Bool) : Nat → List Char → Option (List Char)
  | _, [] => some []
  | 0, _ :: _ => none
  | n + 1, '\\' :: r =>
    match escapedChar r with
    | some (c, r) => (quotedText block n r).map (c :: ·)
    | none => if block then (continuation? r).bind (quotedText block n) else none
  | n + 1, '\n' :: r => if block then (quotedText block n r).map ('\n' :: ·) else none
  | n + 1, '\r' :: '\n' :: r =>
    if block then (quotedText block n r).map ('\r' :: '\n' :: ·) else none
  | n + 1, c :: r => if isTextChar c then (quotedText block n r).map (c :: ·) else none

/-- A string on one line, in quotes or apostrophes. -/
def lineString : List Char → Option (String × List Char)
  | '"' :: r => do
    let (raw, r) ← quotedRaw r
    return (String.ofList (← quotedText false raw.length raw), r)
  | '\'' :: r => do
    let (raw, r) ← literalRaw r
    return (String.ofList (← literalText false raw), r)
  | _ => none

/-- A string of any form. A line end right behind the opening of a block does not count. -/
def string : List Char → Option (String × List Char)
  | '"' :: '"' :: '"' :: r => do
    let (raw, r) ← quotedBlockRaw (dropLineEnd r)
    return (String.ofList (← quotedText true raw.length raw), r)
  | '\'' :: '\'' :: '\'' :: r => do
    let (raw, r) ← literalBlockRaw (dropLineEnd r)
    return (String.ofList (← literalText true raw), r)
  | cs => lineString cs

end WindowForest.Toml

import WindowForest.Toml.Scalar
import WindowForest.Toml.Table
import WindowForest.Toml.Text

/-!
# Documents

A document is a sequence of statements, each of which opens a table or adds an
entry to the table that was opened last. `parse` reads the statements and builds
the table of the whole document. It tells a document from text that is none, and
does not say what is wrong with the latter.

Arrays and inline tables nest to a bounded depth, which also is what the reader
of values recurses on. The number of parts of a dotted key is bounded as well.
The other loops drop at least one character with each round, so they are bounded
by the length of the text.
-/

set_option autoImplicit false

namespace WindowForest.Toml

/-- How deep arrays and inline tables may be nested. -/
def maxDepth : Nat := 80

/-- How many parts a dotted key may have. -/
def maxKeyParts : Nat := 80

/-- What is left behind white space. -/
def skipBlanks (cs : List Char) : List Char := cs.dropWhile isBlank

/-- What is left behind white space, line ends and comments. -/
def skipLines (inComment : Bool) : List Char → Option (List Char)
  | [] => some []
  | '\n' :: r => skipLines false r
  | '\r' :: '\n' :: r => skipLines false r
  | c :: r =>
    if inComment then if isTextChar c then skipLines true r else none
    else if isBlank c then skipLines false r
    else if c = '#' then skipLines true r
    else some (c :: r)

/-- What is left behind a gap in front: white space, and where `lines` says so, line ends and
comments as well. -/
def skipGap (lines : Bool) (cs : List Char) : Option (List Char) :=
  if lines then skipLines false cs else some (skipBlanks cs)

/-- What is left behind the end of a line, in front of which there may be a comment. The end of the
text also ends a line. -/
def endLine (cs : List Char) : Option (List Char) :=
  let rest := match skipBlanks cs with
    | '#' :: r => r.dropWhile isTextChar
    | r => r
  if rest.isEmpty then some [] else lineEnd? rest

/-! ## Keys -/

/-- Whether a character may stand in a key without quotes. -/
def isBareKeyChar (c : Char) : Bool := c.isAlphanum || c = '_' || c = '-'

/-- One part of a key. -/
def keyPart (cs : List Char) : Option (String × List Char) :=
  let bare := cs.takeWhile isBareKeyChar
  if bare.isEmpty then lineString cs
  else some (String.ofList bare, cs.dropWhile isBareKeyChar)

/-- A key of up to `n` parts with dots between them: the path of all parts but the last one, the
last one, and what is left, without the white space in front. -/
def dottedKey : Nat → List Char → Option ((List String × String) × List Char)
  | 0, _ => none
  | n + 1, cs => do
    let (part, r) ← keyPart cs
    match skipBlanks r with
    | '.' :: r =>
      let ((path, key), r) ← dottedKey n (skipBlanks r)
      return ((part :: path, key), r)
    | r => return (([], part), r)

/-- A key in front, of as many parts as are allowed. -/
def key (cs : List Char) : Option ((List String × String) × List Char) := dottedKey maxKeyParts cs

/-- A key and the equals sign behind it. What is left starts with the value. The argument `lines`
says whether the sign may stand on a line of its own. -/
def keyAndSign (lines : Bool) (cs : List Char) :
    Option ((List String × String) × List Char) := do
  let (path, r) ← key cs
  let ('=' :: r) ← skipGap lines r | none
  return (path, ← skipGap lines r)

/-! ## Values -/

/-- A reader of values. -/
abbrev Reader : Type := List Char → Option (Value × List Char)

/-- The items of an array up to its closing bracket, at most `n` of them. A comma may stand behind
the last item. -/
def items (value : Reader) : Nat → List Char → Option (List Value × List Char)
  | _, ']' :: r => some ([], r)
  | 0, _ => none
  | n + 1, cs => do
    let (v, r) ← value cs
    match ← skipLines false r with
    | ',' :: r =>
      let (vs, r) ← items value n (← skipLines false r)
      return (v :: vs, r)
    | ']' :: r => return ([v], r)
    | _ => none

/-- The entries of an inline table up to its closing brace, at most `n` of them, added to those read
already. A comma may stand behind the last entry. -/
def pairs (value : Reader) : Nat → Entries → List Char → Option (Entries × List Char)
  | _, entries, '\x7d' :: r => some (entries, r)
  | 0, _, _ => none
  | n + 1, entries, cs => do
    let ((path, k), r) ← keyAndSign true cs
    let (v, r) ← value r
    let entries ← assign path k v .inline entries
    match ← skipLines false r with
    | ',' :: r => pairs value n entries (← skipLines false r)
    | '\x7d' :: r => return (entries, r)
    | _ => none

/-- A value that holds no other values. -/
def simple : Reader
  | '"' :: r => (string ('"' :: r)).map fun (s, r) => (.text s, r)
  | '\'' :: r => (string ('\'' :: r)).map fun (s, r) => (.text s, r)
  | cs => unquoted cs

/-- A value in which arrays and inline tables nest at most as deep as the first argument says. -/
def value : Nat → Reader
  | 0 => simple
  | depth + 1 => fun
    | '[' :: r => do
      let r ← skipLines false r
      let (vs, r) ← items (value depth) r.length r
      return (.array vs, r)
    | '\x7b' :: r => do
      let r ← skipLines false r
      let (entries, r) ← pairs (value depth) r.length [] r
      return (.table .inline entries, r)
    | cs => simple cs

/-! ## Statements -/

/-- A line of a document that is neither empty nor only a comment. -/
inductive Statement where
  /-- Opens a table. -/
  | table (path : List String) (key : String)
  /-- Opens the next table of an array of tables. -/
  | element (path : List String) (key : String)
  /-- Adds an entry to the table that was opened last. -/
  | entry (path : List String) (key : String) (v : Value)

/-- A statement in front, up to the end of its line. -/
def statement : List Char → Option (Statement × List Char)
  | '[' :: '[' :: r => do
    let ((path, k), r) ← key (skipBlanks r)
    let (']' :: ']' :: r) := r | none
    return (.element path k, ← endLine r)
  | '[' :: r => do
    let ((path, k), r) ← key (skipBlanks r)
    let (']' :: r) := r | none
    return (.table path k, ← endLine r)
  | cs => do
    let ((path, k), r) ← keyAndSign false cs
    let (v, r) ← value maxDepth r
    return (.entry path k v, ← endLine r)

/-- The statements of a text, at most `n` of them. -/
def statements : Nat → List Char → Option (List Statement)
  | 0, cs => do
    let [] ← skipLines false cs | none
    return []
  | n + 1, cs => do
    match ← skipLines false cs with
    | [] => return []
    | cs =>
      let (s, r) ← statement cs
      return s :: (← statements n r)

/-- A document that is being built: its table, and where the table is that was opened last. -/
structure Draft where
  entries : Entries := []
  current : List String := []

namespace Draft

/-- Carries out a statement. -/
def add (d : Draft) : Statement → Option Draft
  | .table path k => (openTable path k d.entries).map fun es => ⟨es, path ++ [k]⟩
  | .element path k => (openElement path k d.entries).map fun es => ⟨es, path ++ [k]⟩
  | .entry path k v =>
    (assignUnder d.current path k v d.entries).map fun es => { d with entries := es }

end Draft

/-- The text without a mark of its byte order in front. -/
def dropMark : List Char → List Char
  | '\ufeff' :: r => r
  | cs => cs

/-- The table that a text describes, if the text is a document. -/
def parse (text : String) : Option Entries := do
  let cs := dropMark text.toList
  let d ← (← statements cs.length cs).foldlM Draft.add {}
  return d.entries

end WindowForest.Toml

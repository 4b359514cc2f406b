import WindowForest.Toml.Moment
import WindowForest.Toml.Text
import WindowForest.Toml.Value

/-!
# Numbers, truth values and moments

These values are written without any marks around them. `unquoted` takes all
characters in front up to the next one with a meaning of its own, and then asks
which kind of value they spell.

Underscores may stand between two digits. A whole number may be written in
another base, then without sign. Decimal digits have no needless zero in front.

A whole number in base ten is read loosely as soon as an underscore follows its
leading digits. From there on only the characters next to underscores are looked
at, and these may be digits of any base up to sixteen. The text then counts as a
number, but it has no value unless all of its digits are decimal.
-/

set_option autoImplicit false

namespace WindowForest.Toml

/-- Digits without the underscores between them. Anything else than digits and single underscores
between two digits is refused, and so is the empty text. -/
def plainDigits (isDigit : Char → Bool) : List Char → Option (List Char)
  | [] => none
  | [c] => if isDigit c then some [c] else none
  | c :: '_' :: r => if isDigit c then (plainDigits isDigit r).map (c :: ·) else none
  | c :: r => if isDigit c then (plainDigits isDigit r).map (c :: ·) else none

/-- The number that the digits of a base spell, underscores aside. -/
def natural? (base : Nat) (cs : List Char) : Option Nat :=
  (plainDigits (digitValue · < base) cs).map (ofDigits base)

/-- Decimal digits that do not start with a needless zero. -/
def decimalDigits? : List Char → Option (List Char)
  | '0' :: _ :: _ => none
  | cs => plainDigits Char.isDigit cs

/-- A whole number in a base other than ten. The mark of the base may stand alone. -/
def based? (base : Nat) : List Char → Option (Option Int)
  | [] => some none
  | cs => (natural? base cs).map fun n => some (n : Int)

/-- The sign in front of a number, and the number itself. -/
def splitSign : List Char → Bool × List Char
  | '-' :: r => (true, r)
  | '+' :: r => (false, r)
  | r => (false, r)

/-- A number with the sign put back. -/
def signed (negative : Bool) (n : Nat) : Int := if negative then -n else n

/-- Whether every underscore has a digit of some base on either side, where `before` is the
character in front of the text. -/
def marksJoinDigits (before : Char) : List Char → Bool
  | [] => true
  | ['_'] => false
  | '_' :: c :: r => digitValue before < 16 && digitValue c < 16 && marksJoinDigits c r
  | c :: r => marksJoinDigits c r

/-- Whether what follows the leading digits of a number leaves it a whole number: nothing does, or
an underscore and then no character that makes it a fraction, an exponent or a moment. -/
def isLooseTail : List Char → Bool
  | [] => true
  | '_' :: r => r.all fun c => c ≠ '.' && c ≠ 'e' && c ≠ 'E' && c ≠ ' '
  | _ => false

/-- Whether the text behind the sign of a whole number in base ten, or the whole text if there is no
sign, is well formed. -/
def isLooseInteger : List Char → Bool
  | [] => false
  | ['0'] => true
  | '0' :: _ => false
  | c :: r =>
    c.isDigit && marksJoinDigits c r && isLooseTail (r.dropWhile Char.isDigit)

/-- A whole number. -/
def integer? : List Char → Option (Option Int)
  | '0' :: 'x' :: r => based? 16 r
  | '0' :: 'o' :: r => based? 8 r
  | '0' :: 'b' :: r => based? 2 r
  | cs =>
    let (negative, r) := splitSign cs
    if isLooseInteger r then
      let digits := r.filter (· ≠ '_')
      some (if digits.all Char.isDigit then some (signed negative (ofDigits 10 digits)) else none)
    else none

/-- The exponent of a number, or zero if there is none. -/
def exponent? : List Char → Option Int
  | [] => some 0
  | 'e' :: r | 'E' :: r =>
    let (negative, r) := splitSign r
    (plainDigits Char.isDigit r).map fun ds => signed negative (ofDigits 10 ds)
  | _ => none

/-- Whether a character is a decimal digit or an underscore. -/
def isDigitOrMark (c : Char) : Bool := c.isDigit || c = '_'

/-- The digits behind the point of a number, if there is a point, and what follows them. -/
def places? : List Char → Option (List Char × List Char)
  | '.' :: r =>
    (plainDigits Char.isDigit (r.takeWhile isDigitOrMark)).map (·, r.dropWhile isDigitOrMark)
  | r => some ([], r)

/-- A number with a fraction or an exponent, or a special value. -/
def real? (cs : List Char) : Option Real :=
  match splitSign cs with
  | (negative, ['i', 'n', 'f']) => some (.infinity negative)
  | (_, ['n', 'a', 'n']) => some .nan
  | (negative, r) => do
    let whole ← decimalDigits? (r.takeWhile isDigitOrMark)
    let (part, r) ← places? (r.dropWhile isDigitOrMark)
    let e ← exponent? r
    return .finite ⟨negative, ofDigits 10 (whole ++ part), e - part.length⟩

/-- The value that characters without marks around them spell. -/
def scalar? (cs : List Char) : Option Value :=
  if cs = ['t', 'r', 'u', 'e'] then some (.boolean true)
  else if cs = ['f', 'a', 'l', 's', 'e'] then some (.boolean false)
  else if isMoment cs then some (.moment (String.ofList cs))
  else
    match integer? cs with
    | some n => some (.integer n)
    | none => (real? cs).map .real

/-- Whether a character ends a value without marks around it, wherever it stands. -/
def endsScalar (c : Char) : Bool :=
  c = '=' || c = ',' || c = '[' || c = ']' || c = '\x7b' || c = '\x7d' || c = '#' || c = '\r' ||
    c = '\n'

/-- Whether a character opens a string where a new word starts. -/
def opensString (c : Char) : Bool := c = '"' || c = '\''

/-- The characters in front up to the first one that ends a value. A quote or an apostrophe only
does so at the start of a word, which `atStart` tells of the first character. -/
def scalarText (atStart : Bool) : List Char → List Char
  | [] => []
  | c :: r =>
    if endsScalar c || atStart && opensString c then [] else c :: scalarText (isBlank c) r

/-- The text without the white space at its end. -/
def dropBlanksAtEnd (cs : List Char) : List Char := (cs.reverse.dropWhile isBlank).reverse

/-- A value without marks around it, and what is left behind it. White space within is part of it,
as between a date and a time. -/
def unquoted (cs : List Char) : Option (Value × List Char) :=
  let text := dropBlanksAtEnd (scalarText true cs)
  (scalar? text).map (·, cs.drop text.length)

end WindowForest.Toml

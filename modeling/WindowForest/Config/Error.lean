import WindowForest.Config.Basic
import WindowForest.Decimal.Double
import WindowForest.Text.Quoted
import WindowForest.Toml.Value

/-!
# Values that do not fit

Each way in which a document fails to be a configuration is a constructor of
`Misfit`, and `message` words it. A value of the wrong type is worded by
`describe`, which itself refuses numbers that are too large to be worded.
-/

set_option autoImplicit false

namespace WindowForest.Config

/-- What was expected in place of a value. -/
inductive Wanted where
  | int32
  | boolean
  | settings
deriving DecidableEq, Repr, Inhabited

/-- The words for what was expected. -/
def Wanted.text : Wanted → String
  | int32 => "i32"
  | boolean => "a boolean"
  | settings => "struct Settings"

/-- What was expected in place of a key. -/
inductive Keys where
  /-- The one key of a document. -/
  | document
  /-- One of the keys of the settings. -/
  | settings
deriving DecidableEq, Repr, Inhabited

/-- A word between two backquotes, as messages mark it. -/
def marked (s : String) : String := "\x60" ++ s ++ "\x60"

/-- A list of the words that could have been used. -/
def oneOf (words : List String) : String := "one of " ++ ", ".intercalate (words.map marked)

/-- The words for the keys that were expected. -/
def Keys.text : Keys → String
  | document => marked settingsKey
  | settings => oneOf (Setting.all.map Setting.key)

/-- Why a document is not a configuration. -/
inductive Misfit where
  | unknownKey (key : String) (expected : Keys)
  | unknownMode (name : String)
  /-- A value, as described, that is of another type than wanted. -/
  | wrongType (found : String) (wanted : Wanted)
  /-- A whole number that does not fit into 32 bits. -/
  | outOfRange (n : Int)
  /-- A whole number that does not even fit into 128 bits. -/
  | integerTooLarge
  | realTooLarge
  /-- A mode is neither a string nor a table. -/
  | modeNeitherTextNorTable
  /-- A table in place of a mode is empty. -/
  | modeMissing
  /-- A table in place of a mode has more than one entry. -/
  | modeAmbiguous
  /-- The mode named by a table is given a value, of the described sort. -/
  | modeWithValue (found : String)
  /-- The mode named by a table is given a table that is not empty. -/
  | modeWithEntries
  /-- The mode named by a table is given an array that is not empty. -/
  | modeWithItems
deriving DecidableEq, Inhabited

/-- The text of a misfit. -/
def Misfit.message : Misfit → String
  | unknownKey k expected => "unknown field " ++ marked k ++ ", expected " ++ expected.text
  | unknownMode name =>
    "unknown variant " ++ marked name ++ ", expected " ++ oneOf (Mode.all.map Mode.name)
  | wrongType found wanted => "invalid type: " ++ found ++ ", expected " ++ wanted.text
  | outOfRange n =>
    "invalid value: integer " ++ marked n.repr ++ ", expected " ++ Wanted.int32.text
  | integerTooLarge => "integer number overflowed"
  | realTooLarge => "floating-point number overflowed"
  | modeNeitherTextNorTable => "wanted string or table"
  | modeMissing => "wanted exactly 1 element, found 0 elements"
  | modeAmbiguous => "wanted exactly 1 element, more than 1 element"
  | modeWithValue found => "expected table, found " ++ found
  | modeWithEntries => "expected empty table"
  | modeWithItems => "expected empty array"

/-- Whether a whole number fits into a number of bits, one of which is the sign. -/
def fitsSigned (bits : Nat) (n : Int) : Bool :=
  -(Nat.pow 2 (bits - 1) : Int) ≤ n && n < Nat.pow 2 (bits - 1)

/-- Whether a whole number fits into a number of bits without a sign. -/
def fitsUnsigned (bits : Nat) (n : Int) : Bool := 0 ≤ n && n < Nat.pow 2 bits

/-- Whether a whole number fits into 64 bits, with or without a sign. -/
def fits64 (n : Int) : Bool := fitsSigned 64 n || fitsUnsigned 64 n

/-- A whole number in the words of a message. Numbers of more than 64 bits are told apart by how
they fit into 128. -/
def describeInteger : Option Int → Except Misfit String
  | none => .error .integerTooLarge
  | some n =>
    if fits64 n then .ok ("integer " ++ marked n.repr)
    else if fitsSigned 128 n then .ok ("integer " ++ marked n.repr ++ " as i128")
    else if fitsUnsigned 128 n then .ok ("integer " ++ marked n.repr ++ " as u128")
    else .error .integerTooLarge

/-- A number with a fraction in the words of a message: the shortest decimal of the double closest
to it, written out in full. -/
def describeReal : Toml.Real → Except Misfit String
  | .nan => .ok ("floating point " ++ marked "NaN")
  | .infinity negative => .ok ("floating point " ++ marked (if negative then "-inf" else "inf"))
  | .finite d =>
    match Double.ofDecimal? d.digits d.exponent with
    | none => .error .realTooLarge
    | some double =>
      let (digits, exponent) := double.shortest
      .ok ("floating point " ++ marked (Decimal.text ⟨d.negative, digits, exponent⟩))

/-- A value in the words of a message. -/
def describe : Toml.Value → Except Misfit String
  | .text s => .ok ("string " ++ Text.quote s)
  | .integer n => describeInteger n
  | .real r => describeReal r
  | .boolean b => .ok ("boolean " ++ marked (if b then "true" else "false"))
  | .moment _ => .ok "map"
  | .table _ _ => .ok "map"
  | .array _ => .ok "sequence"
  | .tables _ _ => .ok "sequence"

/-- The refusal of a value that is of another type than wanted. -/
def mistyped (v : Toml.Value) (wanted : Wanted) : Misfit :=
  match describe v with
  | .ok found => .wrongType found wanted
  | .error e => e

end WindowForest.Config

import WindowForest.Decimal.Basic

/-!
# Values of a TOML document

A table lists its entries in the order of their keys, character by character. It
also carries the style in which it was written, because the style decides
whether a later part of the document may add to it.
-/

set_option autoImplicit false

namespace WindowForest.Toml

/-- How a table came to be written down. -/
inductive Style where
  /-- Written out between braces, and complete as it stands. -/
  | inline
  /-- Opened by a header of its own. The document itself counts as opened. -/
  | header
  /-- Only named so far, on the way to a table further down. -/
  | implied
  /-- Named on the way to a dotted key. -/
  | dotted
deriving DecidableEq, Repr, Inhabited

/-- A number with a fraction or an exponent, or one of the special values. -/
inductive Real where
  | finite (value : Decimal)
  | infinity (negative : Bool)
  | nan
deriving DecidableEq, Repr, Inhabited

/-- A value. -/
inductive Value where
  | text (s : String)
  /-- A whole number of any size. It has no value if it is written without digits, or with other
  characters among them. -/
  | integer (n : Option Int)
  | real (r : Real)
  | boolean (b : Bool)
  /-- A date, a time, or both, as it is written. -/
  | moment (written : String)
  | array (items : List Value)
  /-- An array whose elements are tables with headers of their own. -/
  | tables (earlier : List (List (String × Value))) (last : List (String × Value))
  | table (style : Style) (entries : List (String × Value))
deriving Inhabited

/-- The entries of a table, in the order of their keys. -/
abbrev Entries : Type := List (String × Value)

end WindowForest.Toml

/-!
# Decimal numbers

A decimal number is kept as it is written: a sign, digits and a power of ten.
`positional` writes it out in full, with at least one digit on either side of
the point.
-/

set_option autoImplicit false

namespace WindowForest

/-- The number `± digits · 10 ^ exponent`. Zero has a sign as well. -/
structure Decimal where
  negative : Bool
  digits : Nat
  exponent : Int
deriving DecidableEq, Repr, Inhabited

namespace Decimal

/-- The digits before and behind the point of `digits / 10 ^ places`. -/
def split (digits places : Nat) : List Char × List Char :=
  let all := Nat.toDigits 10 digits
  let padded := List.replicate (places + 1 - all.length) '0' ++ all
  padded.splitAt (padded.length - places)

/-- The number without sign, written without a power of ten. -/
def positional (digits : Nat) (exponent : Int) : String :=
  match exponent with
  | .ofNat n => (digits * Nat.pow 10 n).repr ++ ".0"
  | .negSucc n =>
    let (whole, part) := split digits (n + 1)
    String.ofList (whole ++ ['.'] ++ part)

/-- A number written out in full. -/
def text (d : Decimal) : String :=
  (if d.negative then "-" else "") ++ positional d.digits d.exponent

end Decimal

end WindowForest

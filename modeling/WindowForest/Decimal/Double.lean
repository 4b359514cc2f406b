import WindowForest.Decimal.Basic

/-!
# Doubles and their shortest decimals

A double is a number `mantissa · 2 ^ exponent` with at most 53 bits of mantissa
and an exponent in a fixed range. Decimals are rounded to the nearest double, a
tie going to the even mantissa.

In the other direction a double is written with the fewest digits that are
rounded to it again and, among those, with the digits closest to it; of two that
are equally close the larger one is taken. The digits are searched for on one
decimal grid after the other, coarse to fine. Only the two neighbours of the
double on each grid need to be tried, and all comparisons are made exactly.
-/

set_option autoImplicit false

namespace WindowForest

/-- The number `mantissa · 2 ^ exponent`. -/
structure Double where
  mantissa : Nat
  exponent : Int
deriving DecidableEq, Repr, Inhabited

namespace Double

/-- The least exponent of a double. -/
def minExponent : Int := -1074

/-- The greatest exponent of a finite double. -/
def maxExponent : Int := 971

/-- A quotient rounded to the nearest whole number, a tie going to the even one. -/
def divToEven (num den : Nat) : Nat :=
  let q := num / den
  let r := num % den
  if 2 * r < den then q else if den < 2 * r then q + 1 else q + q % 2

/-- The exponent of the greatest power of two that is at most the quotient of two positive
numbers. -/
def log2Quotient (num den : Nat) : Int :=
  let e := (num.log2 : Int) - den.log2
  if den <<< e.toNat ≤ num <<< (-e).toNat then e else e - 1

/-- The double nearest to the quotient of two positive numbers, without regard to the greatest
exponent. -/
def ofQuotient (num den : Nat) : Double :=
  let e := max (log2Quotient num den - 52) minExponent
  let m := divToEven (num <<< (-e).toNat) (den <<< e.toNat)
  if m = 1 <<< 53 then ⟨1 <<< 52, e + 1⟩ else ⟨m, e⟩

/-- The double nearest to `digits · 10 ^ exponent`, if it is finite. The first two cases keep powers
of ten that lie far out of range from being computed. -/
def ofDecimal? (digits : Nat) (exponent : Int) : Option Double :=
  let magnitude := ((Nat.toDigits 10 digits).length : Int) + exponent
  if digits = 0 ∨ magnitude < -330 then some ⟨0, minExponent⟩
  else if 310 < magnitude then none
  else
    let d := ofQuotient (digits * Nat.pow 10 exponent.toNat) (Nat.pow 10 (-exponent).toNat)
    if maxExponent < d.exponent then none else some d

/-- The exponent of the greatest power of ten that is at most the double. Multiplying by `10 ^ 400`
first leaves at least one digit before the point of any double. -/
def log10 (d : Double) : Int :=
  let scaled := (d.mantissa * Nat.pow 10 400) <<< d.exponent.toNat >>> (-d.exponent).toNat
  ((Nat.toDigits 10 scaled).length : Int) - 401

/-- The numbers that are rounded to a double lie between these two, in quarters of its last
place. Below a power of two the doubles are twice as dense. -/
def quarters (d : Double) : Nat × Nat :=
  let below := if d.mantissa = 1 <<< 52 ∧ d.exponent ≠ minExponent then 1 else 2
  (4 * d.mantissa - below, 4 * d.mantissa + 2)

/-- The digits of a multiple of `10 ^ place` that is rounded to the double, if there is one. -/
def onGrid? (d : Double) (place : Int) : Option Nat :=
  let unit := Nat.pow 10 place.toNat <<< (2 - d.exponent).toNat
  let quarter := Nat.pow 10 (-place).toNat <<< (d.exponent - 2).toNat
  let value := 4 * d.mantissa * quarter
  let low := d.quarters.1 * quarter
  let high := d.quarters.2 * quarter
  let fits (n : Nat) : Bool :=
    (low < n * unit && n * unit < high) ||
      (d.mantissa % 2 == 0 && (n * unit == low || n * unit == high))
  let n := value / unit
  if fits n && fits (n + 1) then
    some (if value - n * unit < (n + 1) * unit - value then n else n + 1)
  else if fits n then some n
  else if fits (n + 1) then some (n + 1)
  else none

/-- The first of the grids with `k`, `k + 1`, … digits that has a number for the double, among
`n` of them. -/
def search (d : Double) (k : Nat) : Nat → Option (Nat × Int)
  | 0 => none
  | n + 1 =>
    let place := d.log10 - k + 1
    match d.onGrid? place with
    | some digits => some (if digits = Nat.pow 10 k then (1, place + k) else (digits, place))
    | none => d.search (k + 1) n

/-- Digits and power of ten of the shortest decimal that is rounded to a double. Seventeen digits
always suffice. -/
def shortest (d : Double) : Nat × Int :=
  if d.mantissa = 0 then (0, 0) else (d.search 1 17).getD (0, 0)

end Double

end WindowForest

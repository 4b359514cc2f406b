/-!
# Dates and times

A moment is a date, a time of day, or both with an optional offset. Only its
form matters here: whether the digits stand where they should and whether each
number is in range, the day of the month included.
-/

set_option autoImplicit false

namespace WindowForest.Toml

/-- A number of two digits in front. -/
def twoDigits : List Char → Option (Nat × List Char)
  | a :: b :: r =>
    if a.isDigit && b.isDigit then
      some (10 * (a.toNat - '0'.toNat) + (b.toNat - '0'.toNat), r)
    else none
  | _ => none

/-- Whether a year has a leap day. -/
def isLeapYear (year : Nat) : Bool := year % 4 = 0 && (year % 100 ≠ 0 || year % 400 = 0)

/-- How many days a month has. There is no month with a number out of range. -/
def daysInMonth (year month : Nat) : Nat :=
  match month with
  | 1 | 3 | 5 | 7 | 8 | 10 | 12 => 31
  | 4 | 6 | 9 | 11 => 30
  | 2 => if isLeapYear year then 29 else 28
  | _ => 0

/-- What follows a date in front, if there is one. -/
def date? (cs : List Char) : Option (List Char) := do
  let (century, r) ← twoDigits cs
  let (year, r) ← twoDigits r
  let ('-' :: r) := r | none
  let (month, r) ← twoDigits r
  let ('-' :: r) := r | none
  let (day, r) ← twoDigits r
  if 1 ≤ day && day ≤ daysInMonth (100 * century + year) month then some r else none

/-- What follows the fraction of a second, if there is a fraction, or the same text without one. -/
def fraction? : List Char → Option (List Char)
  | '.' :: d :: r => if d.isDigit then some (r.dropWhile Char.isDigit) else none
  | ['.'] => none
  | r => some r

/-- What follows a time of day in front, if there is one. The seconds may be left out, and a leap
second is in range. -/
def time? (cs : List Char) : Option (List Char) := do
  let (hour, r) ← twoDigits cs
  let (':' :: r) := r | none
  let (minute, r) ← twoDigits r
  if 23 < hour || 59 < minute then none
  else
    match r with
    | ':' :: r =>
      let (second, r) ← twoDigits r
      if 60 < second then none else fraction? r
    | r => some r

/-- Whether the text is an offset, or empty. -/
def isOffset : List Char → Bool
  | [] | ['Z'] | ['z'] => true
  | sign :: r =>
    (sign = '+' || sign = '-') &&
      match twoDigits r with
      | some (hour, ':' :: r) =>
        match twoDigits r with
        | some (minute, []) => hour ≤ 23 && minute ≤ 59
        | _ => false
      | _ => false

/-- Whether the text is a date, a time of day, or both. -/
def isMoment (cs : List Char) : Bool :=
  match date? cs with
  | none => time? cs = some []
  | some [] => true
  | some (mark :: r) =>
    (mark = 'T' || mark = 't' || mark = ' ') && ((time? r).any isOffset)

end WindowForest.Toml

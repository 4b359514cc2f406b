import Mathlib.Data.List.TakeWhile
import WindowForest.Toml.Scalar

/-!
# Whole numbers read back

The decimal digits of a number have no needless zero in front (`Numeral`). Read as a
value they are that number and nothing else, with and without a minus sign
(`scalar?_repr`).
-/

set_option autoImplicit false

namespace WindowForest.Toml

variable {cs rest : List Char} {c d : Char} {n : Nat}

/-- Characters of a kind are other than those that are not of that kind. -/
theorem ne_of_kind {p : Char → Bool} (hc : p c) (hd : p d = false) : c ≠ d := by
  rintro rfl
  simp [hc] at hd

/-! ## Digits -/

/-- Decimal digits without a needless zero in front. -/
structure Numeral (cs : List Char) : Prop where
  ne_nil : cs ≠ []
  digits : ∀ c ∈ cs, c.isDigit
  lead : ∀ rest, cs = '0' :: rest → rest = []

/-- The decimal digits of a number have no needless zero in front. -/
theorem numeral_toDigits (n : Nat) : Numeral (Nat.toDigits 10 n) := by
  refine ⟨Nat.toDigits_ne_nil, fun c => Nat.isDigit_of_mem_toDigits (by omega) (by omega), ?_⟩
  induction n using Nat.strongRecOn with
  | ind n ih =>
    intro rest hrest
    rw [Nat.toDigits_eq_if (by omega)] at hrest
    split at hrest
    · simp_all
    · obtain ⟨front, hfront⟩ : ∃ front, Nat.toDigits 10 (n / 10) = '0' :: front := by
        cases h : Nat.toDigits 10 (n / 10) with
        | nil => exact absurd h Nat.toDigits_ne_nil
        | cons c front => simp_all
      -- All digits but the last one spell zero, so there was no digit in front of the last one.
      obtain rfl := ih (n / 10) (by omega) front hfront
      have hzero : n / 10 = 0 := by
        rw [← Nat.ofDigitChars_ten_toDigits (n := n / 10), hfront]
        rfl
      omega

/-- The value of a decimal digit is its distance from the zero. -/
theorem digitValue_of_isDigit (hc : c.isDigit) : digitValue c = c.toNat - '0'.toNat := by
  simp only [Char.isDigit, Bool.and_eq_true, decide_eq_true_eq] at hc
  exact if_pos hc

/-- The decimal digits of a number spell this number. -/
theorem ofDigits_toDigits (n : Nat) : ofDigits 10 (Nat.toDigits 10 n) = n := by
  have hvalue : ∀ cs : List Char, (∀ c ∈ cs, c.isDigit) → ∀ acc,
      cs.foldl (fun acc c => 10 * acc + digitValue c) acc = Nat.ofDigitChars 10 cs acc := by
    intro cs hcs
    induction cs with
    | nil => simp [Nat.ofDigitChars]
    | cons c cs ih => simp_all [Nat.ofDigitChars, digitValue_of_isDigit]
  rw [ofDigits, hvalue _ (numeral_toDigits n).digits, Nat.ofDigitChars_ten_toDigits]

/-! ## Whole numbers -/

/-- Among digits alone there is no mark that could be in the wrong place. -/
theorem marksJoinDigits_of_digits (h : ∀ c ∈ cs, c.isDigit) (before : Char) :
    marksJoinDigits before cs = true := by
  induction cs generalizing before with
  | nil => rfl
  | cons c cs ih =>
    obtain ⟨hc, hcs⟩ := List.forall_mem_cons.1 h
    have hmark : c ≠ '_' := ne_of_kind hc (by decide)
    simp [marksJoinDigits, hmark, ih hcs]

/-- Digits have no marks that could be left out. -/
theorem filter_marks_of_digits (h : ∀ c ∈ cs, c.isDigit) : cs.filter (· ≠ '_') = cs := by
  rw [List.filter_eq_self]
  intro c hc
  have hmark : c ≠ '_' := ne_of_kind (h c hc) (by decide)
  simp [hmark]

/-- Digits have no sign in front. -/
theorem splitSign_of_digits (h : ∀ c ∈ cs, c.isDigit) : splitSign cs = (false, cs) := by
  unfold splitSign
  split
  · simp at h
  · simp at h
  · rfl

namespace Numeral

variable (h : Numeral cs)

include h

/-- A numeral is written like a whole number. -/
theorem isLooseInteger_eq : isLooseInteger cs = true := by
  obtain ⟨c, cs, rfl⟩ := List.exists_cons_of_ne_nil h.ne_nil
  obtain ⟨hc, hcs⟩ := List.forall_mem_cons.1 h.digits
  have htail : cs.dropWhile Char.isDigit = [] := List.dropWhile_eq_nil_iff.2 hcs
  unfold isLooseInteger
  split
  · contradiction
  · rfl
  · simp_all [h.lead]
  · next heq =>
    obtain ⟨rfl, rfl⟩ := List.cons.inj heq
    simp [hc, htail, marksJoinDigits_of_digits hcs, isLooseTail]

/-- A numeral is read as the number that its digits spell. -/
theorem integer?_eq : integer? cs = some (some (ofDigits 10 cs : Int)) := by
  have hall : cs.all Char.isDigit := List.all_eq_true.2 h.digits
  unfold integer?
  -- The second character is a digit, and not the mark of another base.
  split
  · simpa using h.digits
  · simpa using h.digits
  · simpa using h.digits
  · simp only [splitSign_of_digits h.digits, h.isLooseInteger_eq, filter_marks_of_digits h.digits,
      hall, signed]
    simp

/-- A numeral behind a minus sign is read as the negative of what its digits spell. -/
theorem integer?_minus : integer? ('-' :: cs) = some (some (-ofDigits 10 cs : Int)) := by
  have hall : cs.all Char.isDigit := List.all_eq_true.2 h.digits
  unfold integer?
  split
  · simp_all
  · simp_all
  · simp_all
  · simp only [splitSign, h.isLooseInteger_eq, filter_marks_of_digits h.digits, hall, signed]
    simp

end Numeral

/-! ## No moments -/

/-- What is left behind two digits was there before. -/
theorem mem_of_twoDigits (h : twoDigits cs = some (n, rest)) : ∀ c ∈ rest, c ∈ cs := by
  unfold twoDigits at h
  split at h <;> simp_all

/-- Without a dash there is no date. -/
theorem date?_eq_none (h : '-' ∉ cs) : date? cs = none := by
  rw [Option.eq_none_iff_forall_ne_some]
  intro rest hrest
  simp only [date?, Option.bind_eq_bind, Option.bind_eq_some_iff, Prod.exists] at hrest
  obtain ⟨century, r, hcentury, year, r', hyear, hrest⟩ := hrest
  split at hrest
  · exact h (mem_of_twoDigits hcentury _ (mem_of_twoDigits hyear _ List.mem_cons_self))
  · cases hrest

/-- Without a colon there is no time. -/
theorem time?_eq_none (h : ':' ∉ cs) : time? cs = none := by
  rw [Option.eq_none_iff_forall_ne_some]
  intro rest hrest
  simp only [time?, Option.bind_eq_bind, Option.bind_eq_some_iff, Prod.exists] at hrest
  obtain ⟨hour, r, hhour, hrest⟩ := hrest
  split at hrest
  · exact h (mem_of_twoDigits hhour _ List.mem_cons_self)
  · cases hrest

/-- Digits alone are no moment. -/
theorem isMoment_of_digits (h : ∀ c ∈ cs, c.isDigit) : isMoment cs = false := by
  have hdash : '-' ∉ cs := fun hmem => by simpa using h _ hmem
  have hcolon : ':' ∉ cs := fun hmem => by simpa using h _ hmem
  simp [isMoment, date?_eq_none hdash, time?_eq_none hcolon]

/-- What starts with a minus sign is no moment. -/
theorem isMoment_minus : isMoment ('-' :: cs) = false := by
  have htwo : twoDigits ('-' :: cs) = none := by
    cases cs <;> simp [twoDigits]
  simp [isMoment, date?, time?, htwo]

/-- What is a whole number and no moment is read as this number. -/
theorem scalar?_of_integer {i : Option Int} (hmoment : isMoment cs = false)
    (hinteger : integer? cs = some i) : scalar? cs = some (.integer i) := by
  have htrue : cs ≠ ['t', 'r', 'u', 'e'] := by
    rintro rfl
    simp [integer?, splitSign, isLooseInteger] at hinteger
  have hfalse : cs ≠ ['f', 'a', 'l', 's', 'e'] := by
    rintro rfl
    simp [integer?, splitSign, isLooseInteger] at hinteger
  simp [scalar?, htrue, hfalse, hmoment, hinteger]

/-- A whole number is read back from its decimal form. -/
theorem scalar?_repr (i : Int) : scalar? i.repr.toList = some (.integer (some i)) := by
  rw [Int.repr_eq_if]
  split
  · next hpos =>
    have h := numeral_toDigits i.toNat
    rw [Nat.toList_repr, scalar?_of_integer (isMoment_of_digits h.digits) h.integer?_eq,
      ofDigits_toDigits, Int.toNat_of_nonneg hpos]
  · next hneg =>
    have h := numeral_toDigits (-i).toNat
    have hvalue : -((-i).toNat : Int) = i := by omega
    calc scalar? ("-" ++ (-i).toNat.repr).toList
        = scalar? ('-' :: Nat.toDigits 10 (-i).toNat) := by
          rw [String.toList_append, Nat.toList_repr]
          rfl
      _ = some (.integer (some i)) := by
          rw [scalar?_of_integer isMoment_minus h.integer?_minus, ofDigits_toDigits, hvalue]

end WindowForest.Toml

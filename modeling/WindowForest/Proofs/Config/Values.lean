import Mathlib.Algebra.Group.Int.Defs
import WindowForest.Config.Load

/-!
# The values of settings

Every setting has values that fit it (`Fits`), and of any other value it is known what is
said about it (`Refuses`). Tables in place of a mode are left aside: they may name a mode
as well. What is read for a setting is exactly the value that `valueOf` gives back, and
these values tell settings apart.
-/

set_option autoImplicit false

namespace WindowForest

/-- Whether a setting is one of the two sizes of a display. -/
def Setting.IsSize (setting : Setting) : Prop :=
  setting = defaultWidth ∨ setting = defaultHeight

/-- Different settings have different keys. -/
theorem Setting.key_injective {s s' : Setting} (h : s.key = s'.key) : s = s' := by
  have hkey : ofKey? s.key = some s' := by
    rw [h]
    exact ofKey?_key s'
  rw [ofKey?_key] at hkey
  exact Option.some.inj hkey

namespace Config

open Toml (Value Entries Style)

variable {s s' : Settings} {setting : Setting} {v : Value} {e : Misfit}

/-- The value of a setting, as it stands in a document. -/
def valueOf (s : Settings) : Setting → Value
  | .defaultMode => .text s.defaultMode.name
  | .freeformEnabled => .boolean s.freeformEnabled
  | .defaultWidth => .integer (some s.defaultWidth.toInt)
  | .defaultHeight => .integer (some s.defaultHeight.toInt)

/-- The value is one of those that the setting can have. -/
inductive Fits : Setting → Value → Prop
  | mode (m : Mode) : Fits .defaultMode (.text m.name)
  | boolean (b : Bool) : Fits .freeformEnabled (.boolean b)
  | size {setting : Setting} {n : Int} (hsize : setting.IsSize) (hn : -2 ^ 31 ≤ n ∧ n < 2 ^ 31) :
    Fits setting (.integer (some n))

/-- The value is none of those that the setting can have, and this is what is said about it. -/
inductive Refuses : Setting → Value → Misfit → Prop
  | unknownMode {name : String} (hname : ∀ m : Mode, m.name ≠ name) :
    Refuses .defaultMode (.text name) (.unknownMode name)
  | noMode {v : Value} (htext : ∀ name, v ≠ .text name) (htable : ∀ style es, v ≠ .table style es) :
    Refuses .defaultMode v .modeNeitherTextNorTable
  | noBoolean {v : Value} (hboolean : ∀ b, v ≠ .boolean b) :
    Refuses .freeformEnabled v (mistyped v .boolean)
  /-- Whole numbers of up to 64 bits are out of range, larger ones are of another type. -/
  | tooWide {setting : Setting} {n : Int} (hsize : setting.IsSize)
    (hn : ¬ (-2 ^ 31 ≤ n ∧ n < 2 ^ 31)) (hwide : -2 ^ 63 ≤ n ∧ n < 2 ^ 64) :
    Refuses setting (.integer (some n)) (.outOfRange n)
  | noInteger {setting : Setting} {v : Value} (hsize : setting.IsSize)
    (hwide : ∀ n, v = .integer (some n) → ¬ (-2 ^ 63 ≤ n ∧ n < 2 ^ 64)) :
    Refuses setting v (mistyped v .int32)

/-- A number fits in 32 bits with a sign if it lies between these bounds. -/
theorem fitsSigned_32_iff {n : Int} : fitsSigned 32 n ↔ -2 ^ 31 ≤ n ∧ n < 2 ^ 31 := by
  simp [fitsSigned]

/-- A number fits in 64 bits, with a sign or without, if it lies between these bounds. -/
theorem fits64_iff {n : Int} : fits64 n ↔ -2 ^ 63 ≤ n ∧ n < 2 ^ 64 := by
  simp [fits64, fitsSigned, fitsUnsigned]
  omega

/-- Settings are determined by their values. -/
theorem eq_of_valueOf (h : ∀ setting, valueOf s setting = valueOf s' setting) : s = s' := by
  obtain ⟨mode, freeform, width, height⟩ := s
  obtain ⟨mode', freeform', width', height'⟩ := s'
  have hmode := h .defaultMode
  have hfreeform := h .freeformEnabled
  have hwidth := h .defaultWidth
  have hheight := h .defaultHeight
  simp only [valueOf, Value.text.injEq, Value.boolean.injEq, Value.integer.injEq, Option.some.injEq,
    Int32.toInt_inj] at hmode hfreeform hwidth hheight
  have hname : mode = mode' := by
    have hread := Mode.ofName?_name mode
    rw [hmode] at hread
    exact Option.mem_unique hread (Mode.ofName?_name mode')
  rw [hname, hfreeform, hwidth, hheight]

/-- The value of a setting fits it. -/
theorem fits_valueOf (s : Settings) (setting : Setting) : Fits setting (valueOf s setting) := by
  cases setting with
  | defaultMode => exact .mode _
  | freeformEnabled => exact .boolean _
  | defaultWidth => exact .size (.inl rfl) ⟨s.defaultWidth.le_toInt, s.defaultWidth.toInt_lt⟩
  | defaultHeight => exact .size (.inr rfl) ⟨s.defaultHeight.le_toInt, s.defaultHeight.toInt_lt⟩

/-- A value that fits is taken over, and the other settings keep theirs. -/
theorem assign_of_fits (h : Fits setting v) (s : Settings) :
    ∃ s', assign s setting v = .ok s' ∧ valueOf s' setting = v ∧
      ∀ other, other ≠ setting → valueOf s' other = valueOf s other := by
  cases h with
  | mode m =>
    refine ⟨{ s with defaultMode := m }, ?_, rfl, ?_⟩
    · simp [assign, decodeMode, modeOfName, Mode.ofName?_name, Except.map]
    · intro other hother
      cases other <;> simp_all [valueOf]
  | boolean b =>
    refine ⟨{ s with freeformEnabled := b }, rfl, rfl, ?_⟩
    intro other hother
    cases other <;> simp_all [valueOf]
  | @size setting n hsize hn =>
    have hint : decodeInt32 (.integer (some n)) = .ok (Int32.ofInt n) :=
      if_pos (fitsSigned_32_iff.2 hn)
    have hback : (Int32.ofInt n).toInt = n := Int32.toInt_ofInt_of_le hn.1 hn.2
    rcases hsize with rfl | rfl
    · refine ⟨{ s with defaultWidth := Int32.ofInt n }, ?_, ?_, ?_⟩
      · rw [assign, hint]
        rfl
      · rw [valueOf, hback]
      · intro other hother
        cases other <;> simp_all [valueOf]
    · refine ⟨{ s with defaultHeight := Int32.ofInt n }, ?_, ?_, ?_⟩
      · rw [assign, hint]
        rfl
      · rw [valueOf, hback]
      · intro other hother
        cases other <;> simp_all [valueOf]

/-- A number of up to 64 bits that does not fit in 32 is out of range. -/
theorem decodeInt32_of_wide {n : Int} (hn : ¬ (-2 ^ 31 ≤ n ∧ n < 2 ^ 31))
    (hwide : -2 ^ 63 ≤ n ∧ n < 2 ^ 64) :
    decodeInt32 (.integer (some n)) = .error (.outOfRange n) := by
  rw [decodeInt32, if_neg fun hfits => hn (fitsSigned_32_iff.1 hfits), if_pos (fits64_iff.2 hwide)]

/-- What is no number of up to 64 bits is of another type. -/
theorem decodeInt32_of_no_integer
    (hwide : ∀ n, v = .integer (some n) → ¬ (-2 ^ 63 ≤ n ∧ n < 2 ^ 64)) :
    decodeInt32 v = .error (mistyped v .int32) := by
  unfold decodeInt32
  split
  · next n =>
    have hout := hwide n rfl
    have hsmall : ¬ fitsSigned 32 n := by
      intro hfits
      have hn := fitsSigned_32_iff.1 hfits
      omega
    rw [if_neg hsmall, if_neg fun hfits => hout (fits64_iff.1 hfits)]
  · rfl

/-- A value that does not fit is refused whatever was read before. -/
theorem assign_of_refuses (h : Refuses setting v e) (s : Settings) :
    assign s setting v = .error e := by
  cases h with
  | @unknownMode name hname =>
    have hnone : Mode.ofName? name = none := by
      rw [Option.eq_none_iff_forall_ne_some]
      exact fun m hm => hname m (Mode.ofName?_eq_some_iff.1 hm)
    simp [assign, decodeMode, modeOfName, hnone, Except.map]
  | noMode htext htable =>
    have hmode : decodeMode v = .error .modeNeitherTextNorTable := by
      unfold decodeMode
      split
      · exact absurd rfl (htext _)
      · exact absurd rfl (htable _ _)
      · exact absurd rfl (htable _ _)
      · exact absurd rfl (htable _ _)
      · rfl
    rw [assign, hmode]
    rfl
  | noBoolean hboolean =>
    have hbool : decodeBool v = .error (mistyped v .boolean) := by
      unfold decodeBool
      split
      · exact absurd rfl (hboolean _)
      · rfl
    rw [assign, hbool]
    rfl
  | tooWide hsize hn hwide =>
    rcases hsize with rfl | rfl <;> rw [assign, decodeInt32_of_wide hn hwide] <;> rfl
  | noInteger hsize hwide =>
    rcases hsize with rfl | rfl <;> rw [assign, decodeInt32_of_no_integer hwide] <;> rfl

/-- Any value fits a size or is refused. -/
theorem fits_or_refuses_size (hsize : setting.IsSize) (v : Value) :
    Fits setting v ∨ ∃ e, Refuses setting v e := by
  by_cases hwide : ∃ n, v = .integer (some n) ∧ -2 ^ 63 ≤ n ∧ n < 2 ^ 64
  · obtain ⟨n, rfl, hn⟩ := hwide
    by_cases hsmall : -2 ^ 31 ≤ n ∧ n < 2 ^ 31
    · exact .inl (.size hsize hsmall)
    · exact .inr ⟨_, .tooWide hsize hsmall hn⟩
  · exact .inr ⟨_, .noInteger hsize fun n hv hn => hwide ⟨n, hv, hn⟩⟩

/-- Unless a table stands in place of a mode, a value fits or is refused. -/
theorem fits_or_refuses (htable : setting = .defaultMode → ∀ style es, v ≠ .table style es) :
    Fits setting v ∨ ∃ e, Refuses setting v e := by
  cases setting with
  | defaultMode =>
    by_cases htext : ∃ name, v = .text name
    · obtain ⟨name, rfl⟩ := htext
      by_cases hname : ∃ m : Mode, m.name = name
      · obtain ⟨m, rfl⟩ := hname
        exact .inl (.mode m)
      · exact .inr ⟨_, .unknownMode fun m hm => hname ⟨m, hm⟩⟩
    · exact .inr ⟨_, .noMode (fun name hv => htext ⟨name, hv⟩) (htable rfl)⟩
  | freeformEnabled =>
    by_cases hboolean : ∃ b, v = .boolean b
    · obtain ⟨b, rfl⟩ := hboolean
      exact .inl (.boolean b)
    · exact .inr ⟨_, .noBoolean fun b hv => hboolean ⟨b, hv⟩⟩
  | defaultWidth => exact fits_or_refuses_size (.inl rfl) v
  | defaultHeight => exact fits_or_refuses_size (.inr rfl) v

end Config

end WindowForest

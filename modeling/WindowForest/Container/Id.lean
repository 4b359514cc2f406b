import Std.Data.ExtTreeMap

/-!
# Numbers that things are known by

Displays, tasks and users are known by numbers. The type of a number says what
it numbers, so that one cannot be taken for another.
-/

set_option autoImplicit false

namespace WindowForest

/-- The things that are known by a number. -/
inductive Numbered where
  | display
  | task
  | user
deriving DecidableEq, Inhabited

/-- The word for a thing that is known by a number. -/
def Numbered.name : Numbered → String
  | display => "display"
  | task => "task"
  | user => "user"

/-- The number of a thing. -/
structure Id (what : Numbered) where
  number : UInt32
deriving DecidableEq, Inhabited

/-- The number of a display. -/
abbrev DisplayId : Type := Id .display

/-- The number of a task. -/
abbrev TaskId : Type := Id .task

/-- The number of a user. -/
abbrev UserId : Type := Id .user

namespace Id

variable {what : Numbered}

/-- The text of a number, as in `display#3`. -/
def text (i : Id what) : String := what.name ++ "#" ++ i.number.toNat.repr

instance : Ord (Id what) := ⟨compareOn Id.number⟩

instance : Std.TransOrd (Id what) :=
  inferInstanceAs (Std.TransCmp (compareOn (@Id.number what)))

instance : Std.LawfulEqOrd (Id what) where
  eq_of_compare {a b} h := by
    have h' : compare a.number b.number = .eq := h
    cases a; cases b
    simp_all

end Id

end WindowForest

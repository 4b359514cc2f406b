/-!
# Windowing modes

A mode says whether a container is shown at bounds of its own or fills its
parent. A container without a mode of its own takes that of its parent.
-/

set_option autoImplicit false

namespace WindowForest

/-- A windowing mode. -/
inductive Mode where
  /-- No mode of its own: that of the parent holds. -/
  | undefined
  | fullscreen
  | pinned
  | splitScreenPrimary
  | splitScreenSecondary
  | freeform
deriving DecidableEq, Repr, Inhabited

namespace Mode

/-- Every mode, in the order in which messages list them. -/
def all : List Mode :=
  [undefined, fullscreen, pinned, splitScreenPrimary, splitScreenSecondary, freeform]

/-- The written name of a mode. -/
def name : Mode → String
  | undefined => "undefined"
  | fullscreen => "fullscreen"
  | pinned => "pinned"
  | splitScreenPrimary => "split_screen_primary"
  | splitScreenSecondary => "split_screen_secondary"
  | freeform => "freeform"

/-- The mode with a given name. -/
def ofName? (s : String) : Option Mode := all.find? fun m => m.name = s

/-- Whether a mode leaves the choice to the parent. -/
def isUndefined (m : Mode) : Bool := m = undefined

/-- Whether a container in this mode is placed at its own bounds. -/
def honorsBounds : Mode → Bool
  | undefined | fullscreen => false
  | pinned | splitScreenPrimary | splitScreenSecondary | freeform => true

/-- Names tell modes apart, and each name is read as the mode it is written for. -/
theorem ofName?_name (m : Mode) : ofName? m.name = some m := by cases m <;> decide

/-- A name is read as a mode exactly if it is the written name of that mode. -/
theorem ofName?_eq_some_iff {s : String} {m : Mode} : ofName? s = some m ↔ m.name = s := by
  constructor
  · intro h
    simpa using List.find?_some h
  · rintro rfl
    exact ofName?_name m

end Mode

end WindowForest

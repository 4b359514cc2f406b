import WindowForest.Settings

/-!
# Configurations

A configuration is written as a document with a single table, `settings`, which
has an entry for each of the settings.
-/

set_option autoImplicit false

namespace WindowForest

/-- What a configuration holds. Entries that are left out have these values. -/
structure Config where
  settings : Settings := {}
deriving DecidableEq, Inhabited

/-- The entries of the settings, in the order in which they are written. -/
inductive Setting where
  | defaultMode
  | freeformEnabled
  | defaultWidth
  | defaultHeight
deriving DecidableEq, Repr, Inhabited

namespace Setting

/-- Every setting, in the order in which they are written. -/
def all : List Setting := [defaultMode, freeformEnabled, defaultWidth, defaultHeight]

/-- The key of a setting. -/
def key : Setting → String
  | defaultMode => "default_windowing_mode"
  | freeformEnabled => "freeform_enabled"
  | defaultWidth => "default_display_width"
  | defaultHeight => "default_display_height"

/-- The setting with a given key. -/
def ofKey? (key : String) : Option Setting := all.find? fun s => s.key = key

/-- Keys tell settings apart, and each key is read as the setting it stands for. -/
theorem ofKey?_key (s : Setting) : ofKey? s.key = some s := by cases s <;> decide

/-- A key is read as a setting exactly if it is the key of that setting. -/
theorem ofKey?_eq_some_iff {key : String} {s : Setting} : ofKey? key = some s ↔ s.key = key := by
  constructor
  · intro h
    simpa using List.find?_some h
  · rintro rfl
    exact ofKey?_key s

end Setting

namespace Config

/-- The key of the table that holds the settings. -/
def settingsKey : String := "settings"

/-- The written form of the value of a setting. -/
def written (s : Settings) : Setting → String
  | .defaultMode => "\"" ++ s.defaultMode.name ++ "\""
  | .freeformEnabled => if s.freeformEnabled then "true" else "false"
  | .defaultWidth => s.defaultWidth.toInt.repr
  | .defaultHeight => s.defaultHeight.toInt.repr

/-- The line that a setting is written on. -/
def line (s : Settings) (setting : Setting) : String :=
  setting.key ++ " = " ++ written s setting ++ "\n"

/-- The text of a configuration. -/
def render (c : Config) : String :=
  "[" ++ settingsKey ++ "]\n" ++ String.join (Setting.all.map (line c.settings))

end Config

end WindowForest

import WindowForest.Container.Mode
import WindowForest.Geometry

/-!
# Settings

The settings say which mode new displays start in, whether containers may be
switched to freeform windowing, and how large a display is by default. Any
values can be stored; `issues` names what is wrong with them.
-/

set_option autoImplicit false

namespace WindowForest

/-- The settings of a hierarchy. -/
structure Settings where
  /-- The mode that new displays are given. What is below a display inherits it. -/
  defaultMode : Mode := .fullscreen
  /-- Whether containers may be switched to freeform windowing. -/
  freeformEnabled : Bool := true
  defaultWidth : Int32 := 1920
  defaultHeight : Int32 := 1080
deriving DecidableEq, Inhabited

namespace Settings

/-- The bounds of a display that is created without any. -/
def defaultBounds (s : Settings) : Rect := .ofSize s.defaultWidth s.defaultHeight

/-- A reason why settings cannot be used. -/
inductive Issue where
  /-- One of the two default sizes is not positive. -/
  | badSize (width height : Int32)
  /-- The default mode would have to be inherited, but displays have no parent. -/
  | undefinedMode
  /-- The default mode is freeform although freeform windowing is disabled. -/
  | disabledMode
deriving DecidableEq, Inhabited

/-- The text of an issue. -/
def Issue.message : Issue → String
  | badSize w h =>
    "settings.default_display_width/height must be positive, got " ++ w.toInt.repr ++ "x" ++
      h.toInt.repr
  | undefinedMode =>
    "settings.default_windowing_mode must be one of: " ++
      ", ".intercalate ((Mode.all.filter (!·.isUndefined)).map Mode.name)
  | disabledMode =>
    "settings.default_windowing_mode is freeform but settings.freeform_enabled is false"

/-- Everything that is wrong with the settings. -/
def issues (s : Settings) : List Issue :=
  (if s.defaultWidth ≤ 0 ∨ s.defaultHeight ≤ 0 then [.badSize s.defaultWidth s.defaultHeight]
    else []) ++
  (if s.defaultMode.isUndefined then [.undefinedMode] else []) ++
  (if s.defaultMode = .freeform ∧ ¬ s.freeformEnabled then [.disabledMode] else [])

end Settings

end WindowForest

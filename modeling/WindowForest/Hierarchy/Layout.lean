import WindowForest.Hierarchy.Basic

/-!
# Layout

The mode in effect for a container is that of the closest container on the way
up which has one of its own. The bounds in effect follow from the mode and from
the bounds of the parent. They are recorded, so every operation that changes
what they follow from lays out anew the containers it concerns, parents first.
-/

set_option autoImplicit false

namespace WindowForest

namespace Hierarchy

variable {η : Type}

/-- The mode in effect for a container: the closest one set on it or above it, or fullscreen. -/
def modeOf (h : Hierarchy η) (node : Key) : Option Mode :=
  if h.contains node then
    let requested := (h.forest.ancestors node).filterMap fun k =>
      (h.container? k).map Container.requestedMode
    some ((requested.find? (!·.isUndefined)).getD .fullscreen)
  else none

/-- Lays out a single container, taking the bounds of its parent as they are. -/
def layOne (h : Hierarchy η) (node : Key) : Hierarchy η :=
  match h.modeOf node with
  | none => h
  | some mode =>
    let parentBounds := (h.forest.parent node).bind h.boundsOf
    h.updateContainer node fun c => c.resolve parentBounds mode

/-- Lays out a container and all below it. -/
def layOut (h : Hierarchy η) (top : Key) : Hierarchy η :=
  (h.forest.preorder top).foldl layOne h

/-- Sets the bounds that a container asks for. -/
def setBounds (h : Hierarchy η) (node : Key) (bounds : Rect) : Outcome η Unit :=
  h.guarded (h.checkLive node) <|
    ((h.updateContainer node fun c => { c with requestedBounds := bounds }).layOut node).finish ()

/-- Sets or clears the rectangle that the surface of a container is anchored to. The bounds in
effect stay as they are. -/
def setOverride (h : Hierarchy η) (node : Key) (bounds : Option Rect) : Outcome η Unit :=
  h.guarded (h.checkLive node) <|
    (h.updateContainer node fun c => { c with overrideBounds := bounds }.anchor).finish ()

/-- Refuses freeform windowing where it is disabled, and missing containers. -/
def checkMode (h : Hierarchy η) (node : Key) (mode : Mode) : Except Error Unit :=
  if mode = .freeform ∧ ¬ h.settings.freeformEnabled then .error .freeformDisabled
  else h.checkLive node

/-- Sets the mode of a container. -/
def setMode (h : Hierarchy η) (node : Key) (mode : Mode) : Outcome η Unit :=
  h.guarded (h.checkMode node mode) <|
    ((h.updateContainer node fun c => { c with requestedMode := mode }).layOut node).finish ()

end Hierarchy

end WindowForest

import WindowForest.Container.Kind
import WindowForest.Container.Mode
import WindowForest.Geometry

/-!
# Containers

A container records what was asked of it (`requestedMode`, `requestedBounds`,
`overrideBounds`) and what follows from that and from its parent (`bounds`,
`surface`). The second group is derived data: `resolve` computes it from the
first group, the bounds of the parent and the mode that is in effect.
-/

set_option autoImplicit false

namespace WindowForest

/-- What is recorded for every container, apart from its place in the hierarchy. -/
structure Container where
  kind : Kind
  /-- The mode set on the container itself. -/
  requestedMode : Mode := .undefined
  /-- The bounds set on the container itself. -/
  requestedBounds : Rect := {}
  /-- The bounds in effect. -/
  bounds : Rect := {}
  /-- A rectangle to anchor the surface to, in place of the bounds in effect. -/
  overrideBounds : Option Rect := none
  /-- Where the surface was last put. -/
  surface : Point := {}
  /-- Whether the container waits to be removed. -/
  pending : Bool := false
deriving DecidableEq, Inhabited

namespace Container

/-- The rectangle that the surface is anchored to. -/
def displayedBounds (c : Container) : Rect := c.overrideBounds.getD c.bounds

/-- Whether the requested bounds count under the given mode. A display always has its own bounds;
any other container needs a mode that honors them and a rectangle that is not empty. -/
def honorsRequest (c : Container) (mode : Mode) : Bool :=
  c.kind.isDisplay || (mode.honorsBounds && !c.requestedBounds.isEmpty)

/-- Puts the surface at the top left corner of the rectangle it is anchored to. -/
def anchor (c : Container) : Container := { c with surface := c.displayedBounds.topLeft }

/-- The bounds that follow from the bounds of the parent, if there is one, and the mode in effect:
the requested ones where they count, and else those of the parent. -/
def effectiveBounds (c : Container) (parentBounds : Option Rect) (mode : Mode) : Rect :=
  match parentBounds with
  | none => c.requestedBounds
  | some parent => if c.honorsRequest mode then c.requestedBounds else parent

/-- Brings bounds and surface up to date. -/
def resolve (c : Container) (parentBounds : Option Rect) (mode : Mode) : Container :=
  { c with bounds := c.effectiveBounds parentBounds mode }.anchor

end Container

end WindowForest

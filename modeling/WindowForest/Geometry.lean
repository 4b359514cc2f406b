/-!
# Points and rectangles

Screen positions are signed 32-bit numbers. They are compared and handed on but
never added up, so nothing here can overflow.
-/

set_option autoImplicit false

namespace WindowForest

/-- A position on the screen. -/
structure Point where
  x : Int32 := 0
  y : Int32 := 0
deriving DecidableEq, Inhabited

/-- An axis-aligned rectangle. The right and the bottom edge are outside of it. -/
structure Rect where
  left : Int32 := 0
  top : Int32 := 0
  right : Int32 := 0
  bottom : Int32 := 0
deriving DecidableEq, Inhabited

namespace Rect

/-- The rectangle of a given size with its top left corner at the origin. -/
def ofSize (width height : Int32) : Rect := ⟨0, 0, width, height⟩

/-- Whether a rectangle has no point inside. -/
def isEmpty (r : Rect) : Bool := r.right ≤ r.left || r.bottom ≤ r.top

/-- The top left corner. -/
def topLeft (r : Rect) : Point := ⟨r.left, r.top⟩

end Rect

end WindowForest

import WindowForest.Forest.Store

/-!
# Linked forests

A forest is a store of linked nodes. Each node knows its parent, its two
neighbours among its siblings, and its first and last child, so the children of
a node form a list that can be walked from either end.

Two operations change the links. `unlink` takes a node out of the list it
stands in and `link` puts a node without parent into a list. Both only touch
the node itself and the two ends of the gap it leaves or fills: what stands
before the gap (`setAfter`) and what stands behind it (`setBefore`), where the
parent stands in for a missing neighbour.
-/

set_option autoImplicit false

namespace WindowForest

/-- What a node knows of its surroundings. A new node stands alone. -/
structure Links where
  parent : Option Key := none
  prev : Option Key := none
  next : Option Key := none
  first : Option Key := none
  last : Option Key := none
deriving DecidableEq, Repr, Inhabited

/-- Linked nodes. One forest holds several trees, so a branch can move between them. -/
abbrev Forest : Type := Store Links

namespace Forest

/-- The parent of a node. Like all look-ups, it answers `none` for a key that names no node. -/
def parent (f : Forest) (k : Key) : Option Key := (f.get? k).bind Links.parent

/-- The sibling in front of a node. -/
def prev (f : Forest) (k : Key) : Option Key := (f.get? k).bind Links.prev

/-- The sibling behind a node. -/
def next (f : Forest) (k : Key) : Option Key := (f.get? k).bind Links.next

/-- The first child of a node. -/
def first (f : Forest) (k : Key) : Option Key := (f.get? k).bind Links.first

/-- The last child of a node, the topmost in stacking order. -/
def last (f : Forest) (k : Key) : Option Key := (f.get? k).bind Links.last

/-- Makes `k` what follows `left` among the children of `parent`, or the first of them. -/
def setAfter (f : Forest) (parent : Key) (left k : Option Key) : Forest :=
  match left with
  | some l => f.modify l fun n => { n with next := k }
  | none => f.modify parent fun n => { n with first := k }

/-- Makes `k` what precedes `right` among the children of `parent`, or the last of them. -/
def setBefore (f : Forest) (parent : Key) (right k : Option Key) : Forest :=
  match right with
  | some r => f.modify r fun n => { n with prev := k }
  | none => f.modify parent fun n => { n with last := k }

/-- Replaces what a node knows of its parent and its siblings. -/
def setPlace (f : Forest) (k : Key) (parent prev next : Option Key) : Forest :=
  f.modify k fun n => { n with parent, prev, next }

/-- Takes a node out of its parent's list of children. Its own children stay with it. -/
def unlink (f : Forest) (node : Key) : Forest :=
  match f.parent node with
  | none => f
  | some parent =>
    let prev := f.prev node
    let next := f.next node
    ((f.setPlace node none none none).setAfter parent prev next).setBefore parent next prev

/-- What stands in front of the place before `right` in the list of `parent`. -/
def leftOf (f : Forest) (parent : Key) (right : Option Key) : Option Key :=
  match right with
  | some r => f.prev r
  | none => f.last parent

/-- Puts a node without parent under `parent`, in front of its child `right` or behind all of its
children. Nothing is linked to itself, and nothing happens where one of the two is missing. -/
def link (f : Forest) (node parent : Key) (right : Option Key) : Forest :=
  if node = parent ∨ node ∉ f ∨ parent ∉ f then f
  else
    let left := f.leftOf parent right
    ((f.setPlace node (some parent) left right).setAfter parent left (some node)).setBefore
      parent right (some node)

end Forest

end WindowForest

import WindowForest.Forest.Tree

/-!
# Last active children

For every node that has had one, the focus remembers which child was last made
active under it. Making a node active points every node above it towards it.

The pointers are mended as the forest changes. When the active child leaves its
parent, the sibling behind it takes over, or else the one in front of it, and a
parent left without children forgets its pointer.
-/

set_option autoImplicit false

namespace WindowForest

/-- Which child was last active under each node. -/
structure Focus where
  pointers : Table Key := ∅

namespace Focus

instance : EmptyCollection Focus := ⟨{ pointers := ∅ }⟩

/-- The child that was last active under a node. -/
def lastActive (s : Focus) (k : Key) : Option Key := s.pointers[k]?

/-- The node reached by following the pointers down from `root` as far as they go. -/
def active (s : Focus) (root : Key) : Key :=
  (follow s.lastActive (s.pointers.size + 1) (some root)).getLastD root

/-- Makes `child` the last active child of `parent`. -/
def point (s : Focus) (parent child : Key) : Focus := ⟨s.pointers.insert parent child⟩

/-- Forgets which child of a node was last active. -/
def forget (s : Focus) (k : Key) : Focus := ⟨s.pointers.erase k⟩

/-- Makes a node active all the way up to its root. -/
def select (s : Focus) (f : Forest) (node : Key) : Focus :=
  (f.ancestors node).foldl
    (fun s k => match f.parent k with
      | some p => s.point p k
      | none => s)
    s

/-- Passes the pointer of a parent on when its active child is about to leave. -/
def leave (s : Focus) (f : Forest) (node : Key) : Focus :=
  match f.parent node with
  | none => s
  | some p =>
    if s.lastActive p = some node then
      match (f.next node).or (f.prev node) with
      | some heir => s.point p heir
      | none => s.forget p
    else s

instance : Observer Focus where
  notice s f e :=
    match e.change with
    | .added => s
    | .attached => s
    | .detaching => s.leave f e.node
    | .removed => s.forget e.node

end Focus

end WindowForest

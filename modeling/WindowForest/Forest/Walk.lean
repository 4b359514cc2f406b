import WindowForest.Forest.Links

/-!
# Walks over a forest

Every walk follows one step function from a starting key: to the next sibling,
to the parent, to the node that comes next in preorder or in postorder. None of
them keeps a stack; the links show the way back up.

A walk visits no node twice, so the number of nodes in the forest bounds its
length. `follow` takes that bound, and the walks built on it show none.
-/

set_option autoImplicit false

namespace WindowForest

/-- The keys `k`, `step k`, `step (step k)`, …, at most `n` of them. -/
def follow (step : Key → Option Key) : Nat → Option Key → List Key
  | 0, _ => []
  | _ + 1, none => []
  | n + 1, some k => k :: follow step n (step k)

/-- A walk that has nowhere to start visits nothing. -/
@[simp] theorem follow_none (step : Key → Option Key) (n : Nat) : follow step n none = [] := by
  cases n <;> rfl

/-- A walk visits its start first and goes on with the step from there. -/
@[simp] theorem follow_succ (step : Key → Option Key) (n : Nat) (k : Key) :
    follow step (n + 1) (some k) = k :: follow step n (step k) := rfl

namespace Forest

/-- The key itself where it names a node. -/
def only (f : Forest) (k : Key) : Option Key := if k ∈ f then some k else none

/-- The children of a node, first to last. -/
def children (f : Forest) (k : Key) : List Key := follow f.next f.size (f.first k)

/-- The children of a node, last to first, along the links that lead backwards. -/
def childrenFromLast (f : Forest) (k : Key) : List Key := follow f.prev f.size (f.last k)

/-- How many children a node has. -/
def childCount (f : Forest) (k : Key) : Nat := (f.children k).length

/-- The child at a position, counted from zero. -/
def childAt (f : Forest) (k : Key) (pos : Nat) : Option Key := (f.children k)[pos]?

/-- Whether a key has no children. -/
def isChildless (f : Forest) (k : Key) : Bool := (f.first k).isNone

/-- The position of a node among the children of its parent. -/
def indexInParent (f : Forest) (k : Key) : Option Nat :=
  (f.parent k).bind fun p => (f.children p).idxOf? k

/-- A node, its parent, and so on up to the root of its tree. -/
def ancestors (f : Forest) (k : Key) : List Key := follow f.parent f.size (f.only k)

/-- Whether `a` is `k` or an ancestor of `k`. -/
def isAncestor (f : Forest) (a k : Key) : Bool := (f.ancestors k).contains a

/-- The node reached by going from first child to first child as far as possible. -/
def leftmostLeaf (f : Forest) (k : Key) : Key := (follow f.first f.size (some k)).getLastD k

/-- The node after `k` in the preorder of the tree below `top`: its first child, or else the next
sibling of the closest node on the way up to `top` that has one. -/
def preorderNext (f : Forest) (top k : Key) : Option Key :=
  (f.first k).or (((f.ancestors k).takeWhile (· ≠ top)).findSome? f.next)

/-- The node after `k` in the postorder of the tree below `top`: the leftmost leaf below its next
sibling, or else its parent. -/
def postorderNext (f : Forest) (top k : Key) : Option Key :=
  if k = top then none
  else
    match f.next k with
    | some sibling => some (f.leftmostLeaf sibling)
    | none => f.parent k

/-- A node and all below it, parents before children and siblings in order. -/
def preorder (f : Forest) (top : Key) : List Key :=
  follow (f.preorderNext top) f.size (f.only top)

/-- A node and all below it, children before parents and siblings in order. -/
def postorder (f : Forest) (top : Key) : List Key :=
  follow (f.postorderNext top) f.size ((f.only top).map f.leftmostLeaf)

end Forest

end WindowForest
